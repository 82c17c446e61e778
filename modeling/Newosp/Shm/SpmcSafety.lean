import Newosp.Shm.MessageQueue
import Newosp.Shm.SpmcSteps

/-!
# Consumers that join a running producer

`RegisterConsumer` raises the flag of its slot before it stores the tail: for a moment the slot is active with the tail
of its last owner. If that is within the capacity behind `head`, also after a `Write` that has already passed the slot,
the producer only sees a slower consumer. If not, `SlowestTail` is misled. The stream goes on at the unbounded number
`H`, and `pos i` is the position of the tail of slot `i`.
-/

namespace Newosp.Shm.SpmcSteps
open Lib List
open Function (update)

variable {ι : Type} {H T i : Nat} {pos : Nat → Nat} {msg : List UInt8} {p : Nat}

section

variable [DecidableEq ι]

/-- A `Read` into `out`. A message of length zero is never taken away: the `Read` that meets it returns
nothing. -/
def receiveAny (out : List UInt8) : List (List UInt8) → (Nat × List UInt8) × List (List UInt8)
  | [] :: q => ((0, out), [] :: q)
  | q => receive out q

/-- The unread messages of each consumer after the event, if it fits them. Who joins has nothing unread; a message goes
to all who joined. -/
def accept (chan : ι → Option (List (List UInt8))) : Event ι → Option (ι → Option (List (List UInt8)))
  | .join c => if (chan c).isNone then some (update chan c (some [])) else none
  | .leave c => if (chan c).isSome then some (update chan c none) else none
  | .write msg => some fun c => (chan c).map (· ++ [msg])
  | .read c out returned result => match chan c with
    | some q =>
      if (receiveAny out q).1 = (returned, result) then some (update chan c (some (receiveAny out q).2))
      else none
    | none => none

/-- The unread messages of each consumer after the events, if each is possible. -/
def replay (events : List (Event ι)) : Option (ι → Option (List (List UInt8))) := events.foldlM accept fun _ => none

end

/-- The length and the total of the message fit 32 bits. -/
def Short (msg : List UInt8) : Prop := msg.length ≤ 4294967291

/-- A reader whose next byte is at `T` has `q` unread when the stream goes on at `H`. -/
structure Follows (K : Nat) (data : Nat → UInt8) (H T : Nat) (q : List (List UInt8)) : Prop where
  distance : H = T + unread q
  holds : Holds K data T q
  short : ∀ msg ∈ q, Short msg

/-- Where a consumer stands: outside, active with a tail to store, or a member with slot `i`. -/
inductive Phase
  | outside
  | claimed (i : Nat)
  | joining (i head : Nat)
  | member (i : Nat)

def ConsumerPC.phase : ConsumerPC → Phase
  | .unregistered | .claim _ | .subCount => .outside
  | .loadHead i => .claimed i
  | .storeTail i head => .joining i head
  | .addCount i | .idle i | .readTail i _ | .readHead i _ _ | .readLen i _ _ _ _ _ | .skip i _ _ _
  | .readPayload i _ _ _ _ _ | .leave i => .member i

def Phase.slot : Phase → Option Nat
  | .outside => none
  | .claimed i | .joining i _ | .member i => some i

def ReadOk (q : List (List UInt8)) (T : Nat) : ConsumerPC → Prop
  | .readHead _ _ tail => tail = wrap32 T
  | .readLen _ _ tail available buffer read => tail = wrap32 T ∧ ∃ msg, q.head? = some msg ∧
      msg.length + 4 ≤ available ∧ Filled (leBytes 4 msg.length) [0, 0, 0, 0] buffer read
  | .skip _ out tail msgLen => tail = wrap32 T ∧ ∃ msg, q.head? = some msg ∧
      msgLen = msg.length ∧ msg ≠ [] ∧ out.length < msg.length
  | .readPayload _ out tail msgLen buffer read => tail = wrap32 T ∧ ∃ msg, q.head? = some msg ∧
      msgLen = msg.length ∧ msg ≠ [] ∧ msg.length ≤ out.length ∧ Filled msg out buffer read
  | _ => True

def ConsumerOk (K : Nat) (data : Nat → UInt8) (H : Nat) (pos : Nat → Nat) (entry : Option (List (List UInt8)))
    (pc : ConsumerPC) : Prop :=
  match pc.phase with
  | .outside | .claimed _ => entry = none
  | .joining i head => ∃ q T, entry = some q ∧ head = wrap32 T ∧ pos i ≤ T ∧ Follows K data H T q
  | .member i => ∃ q, entry = some q ∧ Follows K data H (pos i) q ∧ ReadOk q (pos i) pc

/-- A slot that the loop of `SlowestTail` has passed does not stand in the way of the message. -/
def Passed (K H S : Nat) (msg : List UInt8) (tail : Nat) : Prop :=
  S ≤ tail ∨ H + (msg.length + 4) ≤ tail + K ∨ K < msg.length + 4

structure Space (K : Nat) (active pos : Nat → Nat) (H : Nat) (msg : List UInt8) : Prop where
  short : Short msg
  total : msg.length + 4 ≤ K
  room : ∀ i, active i ≠ 0 → H + (msg.length + 4) ≤ pos i + K

structure Scanned (K : Nat) (active pos : Nat → Nat) (H : Nat) (msg : List UInt8) (head slowest j : Nat) : Prop where
  short : Short msg
  head : head = wrap32 H
  found : ∃ S, slowest = wrap32 S ∧ S ≤ H ∧ H ≤ S + K ∧ ∀ i < j, active i ≠ 0 → Passed K H S msg (pos i)

def WriterOk (K : Nat) (data : Nat → UInt8) (active pos : Nat → Nat) (H : Nat) : WritePC → Prop
  | .idle => True
  | .loadHead msg => Short msg
  | .loadSlowest msg head => Short msg ∧ head = wrap32 H
  | .scan msg head slowest j => Scanned K active pos H msg head slowest j
  | .scanTail msg head slowest j => Scanned K active pos H msg head slowest j ∧ H ≤ pos j + K
  | .reload msg => Space K active pos H msg
  | .writeLen msg head written => Space K active pos H msg ∧ head = wrap32 H ∧
      CopiedTo K data H (leBytes 4 msg.length) written
  | .writePayload msg head written => Space K active pos H msg ∧ head = wrap32 H ∧
      Shows K data H (leBytes 4 msg.length) ∧ CopiedTo K data (H + 4) msg written

/-- The state of the ring when the stream goes on at `H`, the tails are at `pos` and the consumers have
`chan` unread. -/
structure Inv [DecidableEq ι] (k : Nat) (s : State ι) (chan : ι → Option (List (List UInt8))) (H : Nat)
    (pos : Nat → Nat) : Prop where
  capacity : s.mem.capacity = 2 ^ k
  replayed : replay s.events = some chan
  head : s.mem.head = wrap32 H
  tails : ∀ i, s.mem.tails i = wrap32 (pos i)
  behind : ∀ i, pos i ≤ H
  slots : ∀ i, s.mem.active i ≠ 0 → i < s.mem.maxConsumers
  window : ∀ i, s.mem.active i ≠ 0 → H ≤ pos i + 2 ^ k
  owned : ∀ c i, (s.pc c).phase.slot = some i → s.mem.active i = 1
  owner : ∀ c d i, (s.pc c).phase.slot = some i → (s.pc d).phase.slot = some i → c = d
  consumers : ∀ c, ConsumerOk (2 ^ k) s.mem.data H pos (chan c) (s.pc c)
  writer : WriterOk (2 ^ k) s.mem.data s.mem.active pos H s.writer

section

variable {K : Nat} {data : Nat → UInt8} {active active' pos' : Nat → Nat} {entry : Option (List (List UInt8))}
  {pc : ConsumerPC} {q : List (List UInt8)} {x : UInt8}

theorem Short.total (h : Short msg) : wrap32 (msg.length + 4) = msg.length + 4 :=
  wrap32_of_lt (by rw [Short] at h; omega)

theorem Short.leValue_eq (h : Short msg) : leValue (leBytes 4 msg.length) = msg.length :=
  leValue_leBytes (by rw [Short] at h; omega)

theorem Passed.mono {S tail tail' : Nat} (h : Passed K H S msg tail) (le : tail ≤ tail') : Passed K H S msg tail' := by
  rcases h with behind | room | large
  · exact .inl (by omega)
  · exact .inr (.inl (by omega))
  · exact .inr (.inr large)

theorem Space.mono (h : Space K active pos H msg) (fewer : ∀ i, active' i ≠ 0 → active i ≠ 0)
    (farther : ∀ i, pos i ≤ pos' i) : Space K active' pos' H msg := by
  refine ⟨h.short,h.total,?_⟩
  intro i on
  have := h.room i (fewer i on)
  have := farther i
  omega

theorem Scanned.mono {head slowest j : Nat} (h : Scanned K active pos H msg head slowest j)
    (fewer : ∀ i, active' i ≠ 0 → active i ≠ 0) (farther : ∀ i, pos i ≤ pos' i) :
    Scanned K active' pos' H msg head slowest j := by
  obtain ⟨S,eq,le,near,passed⟩ := h.found
  refine ⟨h.short,h.head,S,eq,le,near,?_⟩
  intro i lt on
  exact (passed i lt (fewer i on)).mono (farther i)

theorem WriterOk.mono {pc : WritePC} (h : WriterOk K data active pos H pc)
    (fewer : ∀ i, active' i ≠ 0 → active i ≠ 0) (farther : ∀ i, pos i ≤ pos' i) :
    WriterOk K data active' pos' H pc := by
  cases pc with
  | scan msg head slowest j => exact Scanned.mono h fewer farther
  | scanTail msg head slowest j => exact ⟨h.1.mono fewer farther,h.2.trans (by have := farther j; omega)⟩
  | reload msg => exact Space.mono h fewer farther
  | writeLen | writePayload => exact ⟨h.1.mono fewer farther,h.2⟩
  | _ => exact h

theorem ConsumerOk.keep (h : ConsumerOk K data H pos entry pc) (same : ∀ i, pc.phase.slot = some i → pos' i = pos i) :
    ConsumerOk K data H pos' entry pc := by
  unfold ConsumerOk at h ⊢
  cases phase : pc.phase <;> rw [phase] at h same
  case joining i head =>
    obtain ⟨q,T,rest⟩ := h
    refine ⟨q,T,?_⟩
    rw [same i rfl]
    exact rest
  case member i =>
    obtain ⟨q,eq,rest⟩ := h
    refine ⟨q,eq,?_⟩
    rw [same i rfl]
    exact rest
  all_goals exact h

theorem Follows.update (h : Follows K data H T q)
    (past : H ≤ p) (lap : p < T + K) : Follows K (update data (p % K) x) H T q :=
  ⟨h.distance, h.holds.update (h.distance ▸ past) lap, h.short⟩

theorem ConsumerOk.update (h : ConsumerOk K data H pos entry pc) (past : H ≤ p)
    (lap : ∀ i, pc.phase.slot = some i → p < pos i + K) : ConsumerOk K (update data (p % K) x) H pos entry pc := by
  unfold ConsumerOk at h ⊢
  cases phase : pc.phase <;> rw [phase] at h lap
  case joining i head =>
    obtain ⟨q,T,eq,head,le,follows⟩ := h
    have := lap i rfl
    exact ⟨q,T,eq,head,le,follows.update past (by omega)⟩
  case member i =>
    obtain ⟨q,eq,follows,reading⟩ := h
    exact ⟨q,eq,follows.update past (lap i rfl),reading⟩
  all_goals exact h

theorem ReadOk.push (h : ReadOk q T pc) : ReadOk (q ++ [msg]) T pc := by
  have front : ∀ m, q.head? = some m → (q ++ [msg]).head? = some m := by
    intro m first
    rw [head?_append, first]
    rfl
  cases pc
  case readLen | skip | readPayload =>
    obtain ⟨tail,m,first,rest⟩ := h
    exact ⟨tail,m,front m first,rest⟩
  all_goals exact h

theorem Follows.push (h : Follows K data H T q) (short : Short msg)
    (len : Shows K data H (leBytes 4 msg.length)) (bytes : Shows K data (H + 4) msg) :
    Follows K data (H + (msg.length + 4)) T (q ++ [msg]) := by
  have distance := h.distance
  subst distance
  refine ⟨?_,h.holds.push len bytes,?_⟩
  · rw [unread_append, unread_cons, unread_nil]
    omega
  · intro m member
    rcases mem_append.1 member with old | new
    · exact h.short m old
    · rw [mem_singleton.1 new]
      exact short

theorem ConsumerOk.push
    (h : ConsumerOk K data H pos entry pc) (short : Short msg) (len : Shows K data H (leBytes 4 msg.length))
    (bytes : Shows K data (H + 4) msg) : ConsumerOk K data (H + (msg.length + 4)) pos (entry.map (· ++ [msg])) pc := by
  unfold ConsumerOk at h ⊢
  cases phase : pc.phase <;> rw [phase] at h
  case joining i head =>
    obtain ⟨q,T,rfl,head,le,follows⟩ := h
    exact ⟨q ++ [msg],T,rfl,head,le,follows.push short len bytes⟩
  case member i =>
    obtain ⟨q,rfl,follows,reading⟩ := h
    exact ⟨q ++ [msg],rfl,follows.push short len bytes,reading.push⟩
  all_goals
    subst h
    rfl

end

section

variable [DecidableEq ι] {k : Nat} {s s' : State ι} {chan : ι → Option (List (List UInt8))} {head slowest j : Nat}
  (h : Inv k s chan H pos)
include h

theorem write_step (short : Short msg) (step : writeNext msg s = some s') : Inv k s' chan H pos := by
  unfold writeNext at step
  split at step
  · cases step
    exact { h with writer := short }
  · cases step

omit h in
theorem Scanned.step {K : Nat} {active : Nat → Nat}
    (h : Scanned K active pos H msg head slowest j) {S : Nat} (eq : slowest = wrap32 S) (le : S ≤ H)
    (near : H ≤ S + K) (passed : ∀ i < j, active i ≠ 0 → Passed K H S msg (pos i))
    (last : active j ≠ 0 → Passed K H S msg (pos j)) : Scanned K active pos H msg head slowest (j + 1) := by
  refine ⟨h.short,h.head,S,eq,le,near,?_⟩
  intro i lt on
  by_cases self : i = j
  · subst self
    exact last on
  · exact passed i (by omega) on

theorem scan_step (small : k ≤ 30)
    (pc : s.writer = .scan msg head slowest j) (step : producerNext s = some s') : Inv k s' chan H pos := by
  have bound : 2 ^ k ≤ 2 ^ 30 := Nat.pow_le_pow_right Nat.two_pos small
  have writer := h.writer
  rw [pc] at writer
  obtain ⟨S,eq,le,near,passed⟩ := writer.found
  simp only [producerNext, pc] at step
  split at step
  · split at step
    · rename_i on
      cases step
      exact { h with writer := ⟨writer,h.window j on⟩ }
    · rename_i off
      cases step
      exact { h with writer := Scanned.step writer eq le near passed (fun on => absurd on off) }
  · rename_i finished
    have free : sub32 s.mem.capacity (sub32 head slowest) = 2 ^ k - (H - S) := by
      rw [writer.head, eq, sub32_wrap32 le (by omega), h.capacity, sub32_of_le (by omega) (by omega)]
    rw [free, writer.short.total] at step
    split at step
    · cases step
      exact { h with writer := trivial }
    · rename_i fits
      cases step
      refine { h with writer := ⟨writer.short,by omega,?_⟩ }
      intro i on
      have lt := h.slots i on
      rcases passed i (by omega) on with behind | room | large
      · omega
      · exact room
      · omega

theorem scanTail_step (small : k ≤ 30)
    (pc : s.writer = .scanTail msg head slowest j) (step : producerNext s = some s') : Inv k s' chan H pos := by
  have bound : 2 ^ k ≤ 2 ^ 30 := Nat.pow_le_pow_right Nat.two_pos small
  have writer := h.writer
  rw [pc] at writer
  obtain ⟨scanned,close⟩ := writer
  obtain ⟨S,rfl,le,near,passed⟩ := scanned.found
  have behind := h.behind j
  have order := positive32_sub32 (a := S) (b := pos j) (by omega) (by omega)
  simp only [producerNext, pc, h.tails, order] at step
  cases step
  refine { h with writer := ?_ }
  by_cases farther : pos j < S
  · rw [if_pos farther]
    refine ⟨scanned.short,scanned.head,pos j,rfl,behind,close,?_⟩
    intro i lt on
    by_cases self : i = j
    · subst self
      exact .inl le_rfl
    · rcases passed i (by omega) on with low | rest
      · exact .inl (by omega)
      · exact .inr rest
  · rw [if_neg farther]
    exact scanned.step rfl le near passed (fun _ => .inl (by omega))

theorem publish_step {written : Finset Nat}
    (pc : s.writer = .writePayload msg head written) (step : producerNext s = some s') :
    Inv k s' (fun c => (chan c).map (· ++ [msg])) (H + (msg.length + 4)) pos := by
  have writer := h.writer
  rw [pc] at writer
  obtain ⟨space,rfl,len,bytes⟩ := writer
  simp only [producerNext, pc, space.short.total] at step
  obtain ⟨all,⟨⟩⟩ := enabled step
  refine ⟨h.capacity,foldlM_concat h.replayed rfl,?_,h.tails,?_,h.slots,space.room,h.owned,h.owner,
    ?_, trivial⟩
  · exact wrap32_add_left ..
  · intro i
    have := h.behind i
    omega
  · intro c
    exact (h.consumers c).push space.short len (bytes.shows all)

theorem producer_step (small : k ≤ 30) (step : producerNext s = some s') : ∃ chan' H', Inv k s' chan' H' pos := by
  have writer := h.writer
  have whole := step
  cases pc : s.writer <;> simp only [producerNext, pc] at step
  case idle =>
    cases step
  case loadHead msg =>
    cases step
    rw [pc] at writer
    exact ⟨chan,H,{ h with writer := ⟨writer,h.head⟩ }⟩
  case loadSlowest msg head =>
    cases step
    rw [pc] at writer
    refine ⟨chan,H,{ h with writer := ⟨writer.1,writer.2,H,h.head,le_rfl,?_,?_⟩ }⟩
    · exact Nat.le_add_right ..
    · intro i lt
      exact absurd lt (Nat.not_lt_zero i)
  case scan msg head slowest j => exact ⟨chan,H,scan_step h small pc whole⟩
  case scanTail msg head slowest j => exact ⟨chan,H,scanTail_step h small pc whole⟩
  case reload msg =>
    cases step
    rw [pc] at writer
    exact ⟨chan,H,{ h with writer := ⟨writer,h.head,copiedTo_empty⟩ }⟩
  case writeLen msg head written =>
    rw [pc] at writer
    obtain ⟨all,⟨⟩⟩ := enabled step
    obtain ⟨space,eq,len⟩ := writer
    exact ⟨chan,H,{ h with writer := ⟨space,eq,len.shows (by rwa [leBytes_length]),copiedTo_empty⟩ }⟩
  case writePayload msg head written => exact ⟨_,_,publish_step h pc whole⟩

theorem Inv.lap (space : Space (2 ^ k) s.mem.active pos H msg) {c : ι}
    (mine : (s.pc c).phase.slot = some i) (lt : p < H + (msg.length + 4)) : p < pos i + 2 ^ k := by
  have on := h.owned c i mine
  have := space.room i (by omega)
  omega

theorem copyIn_stores (small : k ≤ 30) (step : copyInNext i s = some s') :
    ∃ msg p byte data writer, Space (2 ^ k) s.mem.active pos H msg ∧ H ≤ p ∧ p < H + (msg.length + 4) ∧
      data = update s.mem.data (p % 2 ^ k) byte ∧
      s' = { s with mem := { s.mem with data, capacity := 2 ^ k }, writer } ∧
      WriterOk (2 ^ k) data s.mem.active pos H writer := by
  have writer := h.writer
  unfold copyInNext at step
  simp only [h.capacity] at step
  split at step
  case h_1 msg head written pc =>
    rw [pc] at writer
    obtain ⟨space,rfl,len⟩ := writer
    have total := space.total
    split at step
    · rename_i byte here
      have lt : i < 4 := by simpa using (List.getElem?_eq_some_iff.1 here).1
      rw [rawIndex_eq (by omega) lt (by omega)] at step
      cases step
      exact ⟨msg,H + i,byte,_,_,space,by omega,by omega,rfl,rfl,
        space, rfl, len.insert (by rw [leBytes_length]; omega) here⟩
    · cases step
  case h_2 msg head written pc =>
    rw [pc] at writer
    obtain ⟨space,rfl,len,bytes⟩ := writer
    have total := space.total
    split at step
    · rename_i byte here
      have lt := (List.getElem?_eq_some_iff.1 here).1
      rw [wrap32_add_left, rawIndex_eq (by omega) lt (by omega)] at step
      cases step
      exact ⟨msg,H + 4 + i,byte,_,_,space,by omega,by omega,rfl,rfl,
        space, rfl, len.update (by rw [leBytes_length]; omega) (by omega), bytes.insert (by omega) here⟩
    · cases step
  case h_3 => cases step

theorem copyIn_step (small : k ≤ 30) {i : Nat} (step : copyInNext i s = some s') : Inv k s' chan H pos := by
  obtain ⟨msg,p,byte,_,pc,space,past,inside,rfl,rfl,writer⟩ := copyIn_stores h small step
  exact { h with
    capacity := rfl
    consumers := fun c => (h.consumers c).update past (fun j mine => h.lap space mine inside)
    writer := writer }

end

end Newosp.Shm.SpmcSteps
