import Newosp.Shm.SpscRefinement

/-!
# What the calls of the single-consumer byte ring store, and that they return

A `Write` stores only after its check has passed, and then returns true; a `Read` stores only to take a message away. A
call finishes by its own steps, whatever the other side does.
-/

namespace Newosp.Shm.Spsc
open Lib List

section

variable {s s' : State} {a : Act} {i : Nat}

def WritePC.accepted : WritePC → Bool
  | .reload _ | .writeLen .. | .writePayload .. => true
  | _ => false

/-- The `Read` found a message and takes it away. -/
def ReadPC.taking : ReadPC → Bool
  | .skip .. | .readPayload .. => true
  | _ => false

/-- A step of a `Write`: without an accepted check it stores nothing; after one it goes on, or returns
true. -/
def WriteEffect (s s' : State) : Prop := (s.writer.accepted = false ∧ s'.mem = s.mem) ∨
  (s.writer.accepted = true ∧ s'.writer.accepted = true ∧ s'.events = s.events) ∨
  (s.writer.accepted = true ∧ ∃ msg, s'.events = s.events ++ [.write msg true])

/-- A step of a `Read`: it stores nothing until it takes a message away; then it goes on, or returns. -/
def ReadEffect (s s' : State) : Prop := (s.reader.taking = false ∧ s'.mem = s.mem) ∨
  (s.reader.taking = true ∧ s'.mem = s.mem ∧ s'.reader.taking = true ∧ s'.events = s.events) ∨
  (s.reader.taking = true ∧ ∃ out returned result, s'.events = s.events ++ [.read out returned result])

theorem producerNext_effect (step : producerNext s = some s') : WriteEffect s s' := by
  cases pc : s.writer <;> simp only [producerNext, pc] at step
  case idle => cases step
  case loadHead =>
    cases step
    exact .inl ⟨by rw [pc]; rfl,rfl⟩
  case loadTail =>
    have before : s.writer.accepted = false := by rw [pc]; rfl
    split at step <;> cases step <;> exact .inl ⟨before,rfl⟩
  case reload =>
    cases step
    exact .inr (.inl ⟨by rw [pc]; rfl,rfl,rfl⟩)
  case writeLen =>
    split at step <;> cases step
    exact .inr (.inl ⟨by rw [pc]; rfl,rfl,rfl⟩)
  case writePayload msg _ _ =>
    split at step <;> cases step
    exact .inr (.inr ⟨by rw [pc]; rfl,msg,rfl⟩)

theorem copyInNext_effect (step : copyInNext i s = some s') : WriteEffect s s' := by
  cases pc : s.writer <;> simp only [copyInNext, pc] at step
  case writeLen | writePayload =>
    split at step <;> cases step
    exact .inr (.inl ⟨by rw [pc]; rfl,rfl,rfl⟩)
  all_goals cases step

theorem consumerNext_effect (step : consumerNext s = some s') : ReadEffect s s' := by
  cases pc : s.reader <;> simp only [consumerNext, pc] at step
  case idle => cases step
  case loadTail =>
    cases step
    exact .inl ⟨by rw [pc]; rfl,rfl⟩
  case loadHead =>
    have before : s.reader.taking = false := by rw [pc]; rfl
    split at step <;> cases step <;> exact .inl ⟨before,rfl⟩
  case readLen =>
    have before : s.reader.taking = false := by rw [pc]; rfl
    obtain ⟨_,step⟩ := enabled step
    split at step
    · cases step
      exact .inl ⟨before,rfl⟩
    · split at step <;> cases step <;> exact .inl ⟨before,rfl⟩
  case skip out _ _ =>
    cases step
    exact .inr (.inr ⟨by rw [pc]; rfl,out,0,out,rfl⟩)
  case readPayload out _ msgLen buffer _ =>
    split at step <;> cases step
    exact .inr (.inr ⟨by rw [pc]; rfl,out,msgLen,buffer,rfl⟩)

theorem copyOutNext_effect (step : copyOutNext i s = some s') : ReadEffect s s' := by
  cases pc : s.reader <;> simp only [copyOutNext, pc] at step
  case readLen =>
    split at step <;> cases step
    exact .inl ⟨by rw [pc]; rfl,rfl⟩
  case readPayload =>
    split at step <;> cases step
    exact .inr (.inl ⟨by rw [pc]; rfl,rfl,rfl,rfl⟩)
  all_goals cases step

theorem next_writeEffect (step : next a s = some s') (mine : a.byProducer = true) : WriteEffect s s' := by
  cases a with
  | write msg =>
    simp only [next, writeNext] at step
    split at step
    · rename_i idle
      cases step
      exact .inl ⟨by rw [idle]; rfl,rfl⟩
    · cases step
  | producer => exact producerNext_effect step
  | copyIn i => exact copyInNext_effect step
  | _ => cases mine

theorem next_readEffect (step : next a s = some s') (other : a.byProducer = false) : ReadEffect s s' := by
  cases a with
  | read out =>
    simp only [next, readNext] at step
    split at step
    · rename_i idle
      cases step
      exact .inl ⟨by rw [idle]; rfl,rfl⟩
    · cases step
  | consumer => exact consumerNext_effect step
  | copyOut i => exact copyOutNext_effect step
  | _ => cases other

theorem Inv.unread_of_taking {k T : Nat} {q : List (List UInt8)} (h : Inv k s q T)
    (taking : s.reader.taking = true) : ∃ msg rest, q = msg :: rest := by
  have reader := h.reader
  cases pc : s.reader <;> rw [pc] at reader taking
  case skip | readPayload =>
    obtain ⟨_,msg,first,_⟩ := reader
    exact ⟨msg,head?_eq_some_iff.1 first⟩
  all_goals cases taking

end

section

variable {s : State}

def WritePC.work : WritePC → Nat
  | .idle => 0
  | .loadHead msg => msg.length + 9
  | .loadTail msg _ => msg.length + 8
  | .reload msg => msg.length + 7
  | .writeLen msg _ written => msg.length + 2 + missing 4 written
  | .writePayload msg _ written => 1 + missing msg.length written

def ReadPC.work : ReadPC → Nat
  | .idle => 0
  | .loadTail out => out.length + 8
  | .loadHead out _ => out.length + 7
  | .readLen out _ _ _ read => out.length + 2 + missing 4 read
  | .skip .. => 1
  | .readPayload _ _ msgLen _ read => 1 + missing msgLen read

theorem producerNext_falls (busy : s.writer ≠ .idle) : ∃ t,
    (producerNext s = some t ∨ ∃ i, copyInNext i s = some t) ∧ t.writer.work < s.writer.work := by
  cases pc : s.writer <;> simp only [producerNext, pc]
  case idle => exact absurd pc busy
  case loadHead msg => exact ⟨_,.inl rfl,by simp only [WritePC.work]; omega⟩
  case loadTail msg head =>
    split
    · exact ⟨_,.inl rfl,by simp only [WritePC.work]; omega⟩
    · exact ⟨_,.inl rfl,by simp only [WritePC.work]; omega⟩
  case reload msg => exact ⟨_,.inl rfl,by simp only [WritePC.work, missing_empty]; omega⟩
  case writeLen msg head written =>
    rcases copy_left 4 written with all | ⟨i,lt,new⟩
    · exact ⟨_,.inl (if_pos all),by simp only [WritePC.work, missing_empty]; omega⟩
    · obtain ⟨byte,here⟩ := leBytes_get lt msg.length
      refine ⟨_,.inr ⟨i,by simp only [copyInNext, pc, here]; rfl⟩,?_⟩
      have := missing_insert_lt lt new
      simp only [WritePC.work]
      omega
  case writePayload msg head written =>
    rcases copy_left msg.length written with all | ⟨i,lt,new⟩
    · exact ⟨_,.inl (if_pos all),by simp only [WritePC.work]; omega⟩
    · refine ⟨_,.inr ⟨i,by simp only [copyInNext, pc, getElem?_eq_getElem lt]; rfl⟩,?_⟩
      have := missing_insert_lt lt new
      simp only [WritePC.work]
      omega

theorem write_advances (busy : s.writer ≠ .idle) : ∃ a t, a.byProducer = true ∧ next a s = some t ∧
    t.writer.work < s.writer.work := by
  obtain ⟨t,step | ⟨i,step⟩,less⟩ := producerNext_falls busy
  · exact ⟨.producer,t,rfl,step,less⟩
  · exact ⟨.copyIn i,t,rfl,step,less⟩

theorem consumerNext_falls (busy : s.reader ≠ .idle) : ∃ t,
    (consumerNext s = some t ∨ ∃ i, copyOutNext i s = some t) ∧ t.reader.work < s.reader.work := by
  cases pc : s.reader <;> simp only [consumerNext, pc]
  case idle => exact absurd pc busy
  case loadTail out => exact ⟨_,.inl rfl,by simp only [ReadPC.work]; omega⟩
  case loadHead out tail =>
    split
    · exact ⟨_,.inl rfl,by simp only [ReadPC.work]; omega⟩
    · exact ⟨_,.inl rfl,by simp only [ReadPC.work, missing_empty]; omega⟩
  case readLen out tail available buffer read =>
    rcases copy_left 4 read with all | ⟨i,lt,new⟩
    · -- whatever the length is, a payload that is read fits the buffer
      rw [if_pos all]
      split
      · exact ⟨_,.inl rfl,by simp only [ReadPC.work]; omega⟩
      · split
        · exact ⟨_,.inl rfl,by simp only [ReadPC.work]; omega⟩
        · exact ⟨_,.inl rfl,by simp only [ReadPC.work, missing_empty]; omega⟩
    · refine ⟨_,.inr ⟨i,by simp only [copyOutNext, pc]; exact if_pos lt⟩,?_⟩
      have := missing_insert_lt lt new
      simp only [ReadPC.work]
      omega
  case skip out tail msgLen => exact ⟨_,.inl rfl,by simp only [ReadPC.work]; omega⟩
  case readPayload out tail msgLen buffer read =>
    rcases copy_left msgLen read with all | ⟨i,lt,new⟩
    · exact ⟨_,.inl (if_pos all),by simp only [ReadPC.work]; omega⟩
    · refine ⟨_,.inr ⟨i,by simp only [copyOutNext, pc]; exact if_pos lt⟩,?_⟩
      have := missing_insert_lt lt new
      simp only [ReadPC.work]
      omega

theorem read_advances (busy : s.reader ≠ .idle) : ∃ a t, a.byProducer = false ∧ next a s = some t ∧
    t.reader.work < s.reader.work := by
  obtain ⟨t,step | ⟨i,step⟩,less⟩ := consumerNext_falls busy
  · exact ⟨.consumer,t,rfl,step,less⟩
  · exact ⟨.copyOut i,t,rfl,step,less⟩

end

section

variable {totalSize : Nat} {data : Nat → UInt8} {s : State}

/-- The calls so far did what the queue says and left the bytes it says; a `Write` that fails and a `Read` that finds
nothing store nothing; and every call returns by its own steps. -/
structure IsQueue (M : Machine State Act) (s : State) : Prop where
  replayed : ∃ q, replay s.mem.capacity s.events = some q ∧ sub32 s.mem.head s.mem.tail = unread q
  capacity : s.mem.capacity = M.init.mem.capacity
  writes : ∀ a t, M.next a s = some t → a.byProducer = true → WriteEffect s t
  reads : ∀ a t, M.next a s = some t → a.byProducer = false → ReadEffect s t
  taken : s.reader.taking = true → ∃ msg q, replay s.mem.capacity s.events = some (msg :: q)
  writeReturns : ∃ as t, (∀ a ∈ as, a.byProducer = true) ∧ as.length ≤ s.writer.work ∧
    M.exec as s = some t ∧ t.writer = .idle
  readReturns : ∃ as t, (∀ a ∈ as, a.byProducer = false) ∧ as.length ≤ s.reader.work ∧
    M.exec as s = some t ∧ t.reader = .idle

/-- **The byte ring refines a queue of messages**, for every size `InitAt` accepts and every interleaving of
one producer and one consumer. -/
theorem spsc_refines_queue (accepted : kHeaderSize < totalSize) (word : totalSize < 4294967296)
    (h : Reach (machine data totalSize) sendable s) : IsQueue (machine data totalSize) s := by
  obtain ⟨k,q,T,small,capacity,inv⟩ := reach_inv accepted word h
  have replayed : replay s.mem.capacity s.events = some q := by
    rw [inv.capacity]
    exact inv.replayed
  constructor
  case replayed =>
    refine ⟨q,replayed,?_⟩
    rw [inv.head, inv.tail, inv.unread_eq small]
  case capacity => exact inv.capacity.trans capacity.symm
  case writes => exact fun a t step mine => next_writeEffect step mine
  case reads => exact fun a t step other => next_readEffect step other
  case taken =>
    intro taking
    obtain ⟨msg,rest,rfl⟩ := inv.unread_of_taking taking
    exact ⟨msg,rest,replayed⟩
  case writeReturns =>
    refine Machine.finishes (M := machine data totalSize) (fun s => s.writer.work) ?_ s
    intro s busy
    exact write_advances busy
  case readReturns =>
    refine Machine.finishes (M := machine data totalSize) (fun s => s.reader.work) ?_ s
    intro s busy
    exact read_advances busy

end

def wholeWrite (msg : List UInt8) : List Act :=
  [.write msg, .producer, .producer, .producer, .copyIn 3, .copyIn 2, .copyIn 1, .copyIn 0, .producer] ++
    (range msg.length).map .copyIn ++ [.producer]

def wholeRead (out : List UInt8) (n : Nat) : List Act :=
  [.read out, .consumer, .consumer, .copyOut 0, .copyOut 1, .copyOut 2, .copyOut 3, .consumer] ++
    (range n).map .copyOut ++ [.consumer]

instance (s : State) (a : Act) : Decidable (sendable s a) := by
  unfold sendable Sendable
  split <;> infer_instance

/-- A message is refused when two fill the ring of 16 bytes, one is skipped, and the length of the next lies
across the end of the data area. -/
theorem spsc_refines_queue_wrapped : ∃ s, kHeaderSize < 32 ∧ Reach (machine (fun _ => 255) 32) sendable s ∧
    s.events = [.write [1, 2, 3] true, .write [4, 5, 6] true, .write [7] false, .read [0] 0 [0],
      .write [7, 8] true, .read [0, 0, 0, 9] 3 [4, 5, 6, 9], .read [0, 0] 2 [7, 8], .read [0] 0 [0]] ∧
    IsQueue (machine (fun _ => 255) 32) s := by
  refine exists_and_left.2 ⟨by decide,reach_and_then (machine (fun _ => 255) 32)
      (wholeWrite [1, 2, 3] ++ wholeWrite [4, 5, 6] ++ [.write [7], .producer, .producer] ++
        wholeRead [0] 0 ++ wholeWrite [7, 8] ++ wholeRead [0, 0, 0, 9] 3 ++ wholeRead [0, 0] 2 ++
        [.read [0], .consumer, .consumer]) (by decide +kernel) fun s reached _ => ?_⟩
  exact spsc_refines_queue (by decide) (by decide) reached

end Newosp.Shm.Spsc
