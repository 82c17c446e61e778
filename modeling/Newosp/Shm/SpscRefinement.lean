import Newosp.Shm.MessageQueue
import Newosp.Shm.SpscByteRing

/-!
# The single-consumer byte ring is a queue of messages

The oldest unread byte is at the unbounded position `T`, the next byte to write at `T` plus the unread bytes. A `Write`
that passed its check owns the bytes from `head` on until it stores `head`; nobody else stores into the data area. Every
call takes effect in one step, at which the entry in `events` is what the queue says.
-/

namespace Newosp.Shm.Spsc
open Lib List

variable {T k : Nat} {data : Nat → UInt8} {q : List (List UInt8)} {s s' : State} {msg : List UInt8} {i : Nat}

/-- What the queue says of a call: `none` if the call did something else, otherwise the messages after it. -/
def accept (capacity : Nat) (q : List (List UInt8)) : Event → Option (List (List UInt8))
  | .write msg ok =>
    if unread q + (msg.length + 4) ≤ capacity then
      if ok = true then some (q ++ [msg]) else none
    else if ok = false then some q
    else none
  | .read out returned result =>
    if (receive out q).1 = (returned, result) then some (receive out q).2 else none

/-- The unread messages after the calls, if each did what the queue says. -/
def replay (capacity : Nat) (events : List Event) : Option (List (List UInt8)) := events.foldlM (accept capacity) []

/-- The message may be sent and there is room for it. -/
def Space (K H T : Nat) (msg : List UInt8) : Prop := Sendable msg ∧ H + (msg.length + 4) ≤ T + K

def WriterOk (K : Nat) (data : Nat → UInt8) (H T : Nat) : WritePC → Prop
  | .idle => True
  | .loadHead msg => Sendable msg
  | .loadTail msg head => Sendable msg ∧ head = wrap32 H
  | .reload msg => Space K H T msg
  | .writeLen msg head written => Space K H T msg ∧ head = wrap32 H ∧
      CopiedTo K data H (leBytes 4 msg.length) written
  | .writePayload msg head written => Space K H T msg ∧ head = wrap32 H ∧
      Shows K data H (leBytes 4 msg.length) ∧ CopiedTo K data (H + 4) msg written

def ReaderOk (q : List (List UInt8)) (T : Nat) : ReadPC → Prop
  | .idle => True
  | .loadTail _ => True
  | .loadHead _ tail => tail = wrap32 T
  | .readLen _ tail available buffer read => tail = wrap32 T ∧ ∃ msg, q.head? = some msg ∧
      msg.length + 4 ≤ available ∧ Filled (leBytes 4 msg.length) [0, 0, 0, 0] buffer read
  | .skip out tail msgLen => tail = wrap32 T ∧ ∃ msg, q.head? = some msg ∧
      msgLen = msg.length ∧ out.length < msg.length
  | .readPayload out tail msgLen buffer read => tail = wrap32 T ∧ ∃ msg, q.head? = some msg ∧
      msgLen = msg.length ∧ msg.length ≤ out.length ∧ Filled msg out buffer read

/-- The state of the ring when `q` is unread and the oldest unread byte is at position `T`. -/
structure Inv (k : Nat) (s : State) (q : List (List UInt8)) (T : Nat) : Prop where
  capacity : s.mem.capacity = 2 ^ k
  replayed : replay (2 ^ k) s.events = some q
  tail : s.mem.tail = wrap32 T
  head : s.mem.head = wrap32 (T + unread q)
  room : unread q ≤ 2 ^ k
  sendable : ∀ msg ∈ q, Sendable msg
  holds : Holds (2 ^ k) s.mem.data T q
  writer : WriterOk (2 ^ k) s.mem.data (T + unread q) T s.writer
  reader : ReaderOk q T s.reader

section

variable {K H T' : Nat}

theorem WriterOk.mono {pc : WritePC} (h : WriterOk K data H T pc) (le : T ≤ T') : WriterOk K data H T' pc := by
  have more : ∀ msg, Space K H T msg → Space K H T' msg := fun msg space => ⟨space.1,by have := space.2; omega⟩
  cases pc
  case reload => exact more _ h
  case writeLen => exact ⟨more _ h.1,h.2⟩
  case writePayload => exact ⟨more _ h.1,h.2⟩
  all_goals exact h

theorem ReaderOk.push {pc : ReadPC} (h : ReaderOk q T pc) : ReaderOk (q ++ [msg]) T pc := by
  have front : ∀ m, q.head? = some m → (q ++ [msg]).head? = some m := by
    intro m first
    rw [head?_append, first]
    rfl
  cases pc
  case readLen | skip | readPayload =>
    obtain ⟨tail,m,first,rest⟩ := h
    exact ⟨tail,m,front m first,rest⟩
  all_goals exact h

end

section

variable {msg : List UInt8} (h : Inv k s q T) {head : Nat}
include h

theorem Inv.unread_eq (word : k ≤ 31) : sub32 (wrap32 (T + unread q)) (wrap32 T) = unread q := by
  have small : 2 ^ k ≤ 2 ^ 31 := Nat.pow_le_pow_right Nat.two_pos word
  have room := h.room
  rw [sub32_wrap32 (by omega) (by omega), Nat.add_sub_cancel_left]

theorem write_step (sendable : Sendable msg) (step : writeNext msg s = some s') : Inv k s' q T := by
  unfold writeNext at step
  split at step
  · cases step
    exact { h with writer := sendable }
  · cases step

theorem check_step (word : k ≤ 31) (pc : s.writer = .loadTail msg head)
    (step : producerNext s = some s') : Inv k s' q T := by
  have writer := h.writer
  rw [pc] at writer
  obtain ⟨sendable,rfl⟩ := writer
  have small : 2 ^ k ≤ 2 ^ 31 := Nat.pow_le_pow_right Nat.two_pos word
  have room := h.room
  have free : sub32 s.mem.capacity (sub32 (wrap32 (T + unread q)) s.mem.tail) = 2 ^ k - unread q := by
    rw [h.tail, h.unread_eq word, h.capacity, sub32_of_le (by omega) room]
  simp only [producerNext, pc, free, sendable.total] at step
  split at step
  · rename_i full
    cases step
    refine { h with replayed := foldlM_concat h.replayed ?_, writer := trivial }
    rw [accept, if_neg (by omega), if_pos rfl]
  · rename_i fits
    cases step
    exact { h with writer := ⟨sendable,by omega⟩ }

theorem publish_step {written : Finset Nat}
    (pc : s.writer = .writePayload msg head written) (step : producerNext s = some s') : Inv k s' (q ++ [msg]) T := by
  have writer := h.writer
  rw [pc] at writer
  obtain ⟨⟨sendable,space⟩,rfl,len,bytes⟩ := writer
  have grown : unread (q ++ [msg]) = unread q + (msg.length + 4) := by
    rw [unread_append, unread_cons, unread_nil, add_zero]
  simp only [producerNext, pc, sendable.total] at step
  obtain ⟨all,⟨⟩⟩ := enabled step
  refine ⟨h.capacity,foldlM_concat h.replayed ?_,h.tail,?_,by omega,?_,?_,trivial,h.reader.push⟩
  · rw [accept, if_pos (by omega), if_pos rfl]
  · simp only [wrap32_add_left, grown, add_assoc]
  · intro m member
    rcases mem_append.1 member with old | new
    · exact h.sendable m old
    · rw [mem_singleton.1 new]
      exact sendable
  · exact h.holds.push len (bytes.shows all)

theorem producer_step (word : k ≤ 31) (step : producerNext s = some s') : ∃ q', Inv k s' q' T := by
  have writer := h.writer
  have whole := step
  cases pc : s.writer <;> simp only [producerNext, pc] at step
  case idle =>
    cases step
  case loadHead msg =>
    cases step
    rw [pc] at writer
    exact ⟨q,{ h with writer := ⟨writer,h.head⟩ }⟩
  case loadTail msg head => exact ⟨q,check_step h word pc whole⟩
  case reload msg =>
    cases step
    rw [pc] at writer
    exact ⟨q,{ h with writer := ⟨writer,h.head,copiedTo_empty⟩ }⟩
  case writeLen msg head written =>
    rw [pc] at writer
    obtain ⟨all,⟨⟩⟩ := enabled step
    obtain ⟨space,eq,len⟩ := writer
    exact ⟨q,{ h with writer := ⟨space,eq,len.shows (by rwa [leBytes_length]),copiedTo_empty⟩ }⟩
  case writePayload msg head written => exact ⟨q ++ [msg],publish_step h pc whole⟩

theorem copyIn_step (word : k ≤ 31) (step : copyInNext i s = some s') : Inv k s' q T := by
  have writer := h.writer
  unfold copyInNext at step
  simp only [h.capacity] at step
  split at step
  case h_1 msg head written pc =>
    rw [pc] at writer
    obtain ⟨⟨sendable,space⟩,rfl,len⟩ := writer
    split at step
    · rename_i byte here
      have lt : i < 4 := by simpa using (List.getElem?_eq_some_iff.1 here).1
      rw [rawIndex_eq (by omega) lt (by omega)] at step
      cases step
      exact { h with
        capacity := rfl
        holds := h.holds.update (by omega) (by omega)
        writer := ⟨⟨sendable,space⟩,rfl,len.insert (by rw [leBytes_length]; omega) here⟩ }
    · cases step
  case h_2 msg head written pc =>
    rw [pc] at writer
    obtain ⟨⟨sendable,space⟩,rfl,len,bytes⟩ := writer
    split at step
    · rename_i byte here
      have lt := (List.getElem?_eq_some_iff.1 here).1
      rw [wrap32_add_left, rawIndex_eq (by omega) lt (by omega)] at step
      cases step
      exact { h with
        capacity := rfl
        holds := h.holds.update (by omega) (by omega)
        writer := ⟨⟨sendable,space⟩,rfl,len.update (by rw [leBytes_length]; omega) (by omega),
          bytes.insert (by omega) here⟩ }
    · cases step
  case h_3 => cases step

end

section

variable {out : List UInt8}

theorem read_step (h : Inv k s q T) (step : readNext out s = some s') : Inv k s' q T := by
  unfold readNext at step
  split at step
  · cases step
    exact { h with reader := trivial }
  · cases step

theorem Inv.pop {e : Event} (h : Inv k s (msg :: q) T)
    (takes : accept (2 ^ k) (msg :: q) e = some q) :
    Inv k { s with mem := { s.mem with tail := wrap32 (wrap32 T + msg.length + 4) }, reader := .idle,
                   events := s.events ++ [e] } q (T + (msg.length + 4)) := by
  have next : T + unread (msg :: q) = T + (msg.length + 4) + unread q := by
    rw [unread_cons, ← add_assoc]
  have room := h.room
  rw [unread_cons] at room
  refine ⟨h.capacity,foldlM_concat h.replayed takes,?_,?_,by omega,?_,?_,?_,trivial⟩
  · rw [add_assoc]
    exact wrap32_add_left ..
  · rw [← next]
    exact h.head
  · intro m member
    exact h.sendable m (mem_cons_of_mem _ member)
  · exact (holds_cons.1 h.holds).2.2
  · rw [← next]
    exact h.writer.mono (Nat.le_add_right ..)

section

variable (h : Inv k s q T)
include h

theorem available_step (word : k ≤ 31) {tail : Nat}
    (pc : s.reader = .loadHead out tail) (step : consumerNext s = some s') : Inv k s' q T := by
  have reader := h.reader
  rw [pc] at reader
  obtain rfl := reader
  simp only [consumerNext, pc, h.head, h.unread_eq word] at step
  split at step
  · rename_i few
    cases step
    obtain rfl := eq_nil_of_unread_lt few
    refine { h with replayed := foldlM_concat h.replayed ?_, reader := trivial }
    rw [accept, receive, if_pos rfl]
  · rename_i some
    cases step
    cases q with
    | nil => exact absurd (by decide) some
    | cons msg q =>
      refine { h with reader := ⟨rfl,msg,rfl,?_,filled_empty⟩ }
      rw [unread_cons]
      omega

theorem length_step {buffer : List UInt8} {tail available : Nat} {read : Finset Nat}
    (pc : s.reader = .readLen out tail available buffer read) (step : consumerNext s = some s') : Inv k s' q T := by
  have reader := h.reader
  rw [pc] at reader
  obtain ⟨eq,msg,first,enough,filled⟩ := reader
  have sendable := h.sendable msg (mem_of_mem_head? first)
  have positive := sendable.1
  simp only [consumerNext, pc] at step
  obtain ⟨all,step⟩ := enabled step
  have copied : buffer = leBytes 4 msg.length := by
    have done := filled.eq_append (by rwa [leBytes_length])
    rwa [leBytes_length, show drop 4 [(0 : UInt8), 0, 0, 0] = [] from rfl, append_nil] at done
  rw [copied, sendable.leValue_eq, sendable.total, if_neg (by omega)] at step
  split at step
  · rename_i long
    cases step
    exact { h with reader := ⟨eq,msg,first,rfl,long⟩ }
  · rename_i short
    cases step
    exact { h with reader := ⟨eq,msg,first,rfl,by omega,filled_empty⟩ }

theorem consumer_step (word : k ≤ 31) (step : consumerNext s = some s') : ∃ q' T', Inv k s' q' T' := by
  have reader := h.reader
  have whole := step
  cases pc : s.reader <;> simp only [consumerNext, pc] at step
  case idle =>
    cases step
  case loadTail out =>
    cases step
    exact ⟨q,T,{ h with reader := h.tail }⟩
  case loadHead out tail => exact ⟨q,T,available_step h word pc whole⟩
  case readLen out tail available buffer read => exact ⟨q,T,length_step h pc whole⟩
  case skip out tail msgLen =>
    cases step
    rw [pc] at reader
    obtain ⟨rfl,msg,first,rfl,long⟩ := reader
    obtain ⟨rest,rfl⟩ := head?_eq_some_iff.1 first
    refine ⟨rest,_,h.pop ?_⟩
    rw [accept, receive_of_lt long, if_pos rfl]
  case readPayload out tail msgLen buffer read =>
    rw [pc] at reader
    obtain ⟨rfl,msg,first,rfl,short,filled⟩ := reader
    obtain ⟨rest,rfl⟩ := head?_eq_some_iff.1 first
    obtain ⟨all,⟨⟩⟩ := enabled step
    refine ⟨rest,_,h.pop ?_⟩
    rw [accept, receive_of_le short, filled.eq_append all, if_pos rfl]

theorem copyOut_step (word : k ≤ 31) (step : copyOutNext i s = some s') : Inv k s' q T := by
  have reader := h.reader
  have room := h.room
  unfold copyOutNext at step
  simp only [h.capacity] at step
  split at step
  case h_1 out tail available buffer read pc =>
    rw [pc] at reader
    obtain ⟨rfl,msg,first,enough,filled⟩ := reader
    obtain ⟨rest,rfl⟩ := head?_eq_some_iff.1 first
    rw [unread_cons] at room
    obtain ⟨lt,step⟩ := enabled step
    obtain ⟨byte,here⟩ := leBytes_get lt msg.length
    rw [rawIndex_eq (by omega) lt (by omega), (holds_cons.1 h.holds).1 i _ here] at step
    cases step
    exact { h with reader := ⟨rfl,msg,first,enough,filled.set (by rw [leBytes_length]; decide) here⟩ }
  case h_2 out tail msgLen buffer read pc =>
    rw [pc] at reader
    obtain ⟨rfl,msg,first,rfl,short,filled⟩ := reader
    obtain ⟨rest,rfl⟩ := head?_eq_some_iff.1 first
    rw [unread_cons] at room
    obtain ⟨lt,step⟩ := enabled step
    have here : msg[i]? = some msg[i] := getElem?_eq_getElem lt
    rw [wrap32_add_left, rawIndex_eq (by omega) lt (by omega), (holds_cons.1 h.holds).2.1 i _ here] at step
    cases step
    exact { h with reader := ⟨rfl,msg,first,rfl,short,filled.set short here⟩ }
  case h_3 => cases step

end

end

section

variable {totalSize : Nat} {a : Act}

/-- The guard of the runs: every message written is sendable. -/
def sendable (_ : State) : Act → Prop
  | .write msg => Sendable msg
  | _ => True

/-- Every step keeps the ring a queue. -/
theorem next_inv (h : Inv k s q T) (word : k ≤ 31) (guard : sendable s a)
    (step : next a s = some s') : ∃ q' T', Inv k s' q' T' := by
  cases a with
  | write msg => exact ⟨q,T,write_step h guard step⟩
  | producer =>
    obtain ⟨q',kept⟩ := producer_step h word step
    exact ⟨q',T,kept⟩
  | copyIn i => exact ⟨q,T,copyIn_step h word step⟩
  | read out => exact ⟨q,T,read_step h step⟩
  | consumer => exact consumer_step h word step
  | copyOut i => exact ⟨q,T,copyOut_step h word step⟩

theorem initAt_capacity (accepted : kHeaderSize < totalSize) (word : totalSize < 4294967296) :
    ∃ k ≤ 31, (initAt data totalSize).capacity = 2 ^ k := by
  have positive : totalSize - kHeaderSize ≠ 0 := by omega
  refine ⟨(totalSize - kHeaderSize).log2,?_,roundDownPow2_eq positive (by omega)⟩
  have := (Nat.log2_lt positive).2 (show totalSize - kHeaderSize < 2 ^ 32 by omega)
  omega

theorem init_inv (capacity : (initAt data totalSize).capacity = 2 ^ k) : Inv k (machine data totalSize).init [] 0 where
  capacity := capacity
  replayed := rfl
  tail := rfl
  head := rfl
  room := Nat.zero_le _
  sendable := fun _ member => absurd member not_mem_nil
  holds := holds_nil
  writer := trivial
  reader := trivial

theorem reach_inv (accepted : kHeaderSize < totalSize) (word : totalSize < 4294967296)
    (h : Reach (machine data totalSize) sendable s) :
    ∃ k q T, k ≤ 31 ∧ (initAt data totalSize).capacity = 2 ^ k ∧ Inv k s q T := by
  obtain ⟨k,small,capacity⟩ : ∃ k ≤ 31, (initAt data totalSize).capacity = 2 ^ k := initAt_capacity accepted word
  have inv : ∃ q T, Inv k s q T := by
    refine h.invariant (I := fun s => ∃ q T, Inv k s q T) ⟨[],0,init_inv capacity⟩ ?_
    rintro s t a _ ⟨q,T,inv⟩ guard step
    exact next_inv inv small guard step
  obtain ⟨q,T,inv⟩ := inv
  exact ⟨k,q,T,small,capacity,inv⟩

end

end Newosp.Shm.Spsc
