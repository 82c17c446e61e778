import Newosp.Ring.RingbufferRefinement

/-!
# `SpscRingbuffer` refines a bounded queue, and its calls return

The steps put together: in every run the history is one of the bounded queue. No call waits for the other
side, so each returns by its own steps; the measure counts the elements of a batch that are still to copy.
-/

namespace Newosp.Ringbuffer
open Lib

variable {α : Type} {cfg : Config} {moved : α → α} {data : Nat → α} {s : State α}

section

variable {s' : State α} {a : Act α}

/-- The guard of the runs: the index given to `At` is one of `IndexT`. -/
def indexFits (cfg : Config) (_ : State α) : Act α → Prop
  | .elementAt index => index < 2 ^ cfg.width
  | _ => True

/-- Every step keeps the ring a bounded queue. -/
theorem next_inv {σ : Fifo α} {T : Nat} (h : Inv cfg s σ T) (guard : indexFits cfg s a)
    (step : next cfg moved a s = some s') : ∃ τ T', Inv cfg s' τ T' := by
  cases a with
  | push | pushFromCallback | pushBatch => exact ⟨σ,T,beginPush_step h step id⟩
  | producer =>
    obtain ⟨τ,kept⟩ := producer_step h step
    exact ⟨τ,T,kept⟩
  | copyIn i => exact ⟨σ,T,copyIn_step h step⟩
  | pop | popBatch | discard | peek | consumerClear => exact ⟨σ,T,beginPop_step h step id⟩
  | elementAt index => exact ⟨σ,T,beginPop_step h step fun none => ⟨none,guard⟩⟩
  | consumer => exact consumer_step h step
  | copyOut i => exact ⟨σ,T,copyOut_step h step⟩

theorem init_inv : Inv cfg (machine cfg moved data).init .empty 0 where
  replayed := .nil _
  tail := (wrapTo_zero _).symm
  head := (wrapTo_zero _).symm
  room := Nat.zero_le _
  holds := by
    intro i v here
    cases here
  writer := rfl
  reader := rfl

theorem reach_inv (h : Reach (machine cfg moved data) (indexFits cfg) s) : ∃ σ T, Inv cfg s σ T := by
  apply h.invariant (I := fun s => ∃ σ T, Inv cfg s σ T)
  · exact ⟨.empty,0,init_inv⟩
  · rintro s t a _ ⟨σ,T,inv⟩ guard step
    exact next_inv inv guard step

end

section

variable {σ : Fifo α} {T : Nat}

/-- A bound on the steps a producer call still takes. -/
def PushPC.work : PushPC α → Nat
  | .idle => 0
  | .loadHead _ => 4
  | .loadTail .. => 3
  | .fill .. => 2
  | .storeHead .. => 1
  | .batchHead buf => 3 * buf.length + 2
  | .batchTail buf written _ => 3 * (buf.length - written) + 1
  | .batchCopy buf written _ toWrite copied =>
    3 * (buf.length - (written + toWrite)) + 2 + missing toWrite copied

/-- A bound on the steps a consumer call still takes. -/
def PopPC.work : PopPC α → Nat
  | .idle => 0
  | .popTail => 4
  | .popHead _ | .discardTail _ => 3
  | .popTake _ | .discardHead .. | .peekTail | .atTail _ | .clearHead => 2
  | .popStore .. | .discardStore .. | .peekHead _ | .atHead .. | .clearStore _ => 1
  | .batchTail out => 3 * out.length + 2
  | .batchHead out _ read _ => 3 * (out.length - read) + 1
  | .batchCopy out _ read _ toRead copied => 3 * (out.length - (read + toRead)) + 2 + missing toRead copied

def Act.goesOn : Act α → Bool
  | .producer | .copyIn _ | .consumer | .copyOut _ => true
  | _ => false

theorem pushLoop_work (s : State α) (buf : List α) (written head : Nat) (entered : List (Event α)) :
    (s.pushLoop buf written head entered).writer.work ≤ 3 * (buf.length - written) + 1 := by
  unfold State.pushLoop
  split
  · exact le_rfl
  · exact Nat.zero_le _

theorem popLoop_work (s : State α) (out buf : List α) (read tail : Nat) (entered : List (Event α)) :
    (s.popLoop out buf read tail entered).reader.work ≤ 3 * (out.length - read) + 1 := by
  unfold State.popLoop
  split
  · exact le_rfl
  · exact Nat.zero_le _

theorem producerNext_falls (h : Inv cfg s σ T) (busy : s.writer ≠ .idle) : ∃ t,
    (producerNext cfg s = some t ∨ ∃ i, copyInNext cfg i s = some t) ∧ t.writer.work < s.writer.work := by
  have writer := h.writer
  cases pc : s.writer <;> simp only [producerNext, pc]
  case idle => exact absurd pc busy
  case loadHead callback => exact ⟨_,.inl rfl,Nat.lt_succ_self 3⟩
  case loadTail callback head =>
    split
    · exact ⟨_,.inl rfl,Nat.succ_pos 2⟩
    · exact ⟨_,.inl rfl,Nat.lt_succ_self 2⟩
  case fill callback head => exact ⟨_,.inl rfl,Nat.lt_succ_self 1⟩
  case storeHead value head => exact ⟨_,.inl rfl,Nat.lt_succ_self 0⟩
  case batchHead buf => exact ⟨_,.inl rfl,Nat.lt_succ_of_le (pushLoop_work ..)⟩
  case batchTail buf written head =>
    rw [pc] at writer
    have more := writer.2.2
    split
    · exact ⟨_,.inl rfl,Nat.succ_pos _⟩
    · refine ⟨_,.inl rfl,?_⟩
      simp only [PushPC.work, State.writerTo, missing_empty]
      omega
  case batchCopy buf written head toWrite done =>
    rcases copy_left toWrite done with all | ⟨i,lt,new⟩
    · refine ⟨_,.inl (if_pos all),lt_of_le_of_lt (pushLoop_work ..) ?_⟩
      simp only [PushPC.work]
      omega
    · rw [pc] at writer
      have inside := writer.2.2.1
      have here : buf[written + i]? = some buf[written + i] := List.getElem?_eq_getElem (by omega)
      refine ⟨_,.inr ⟨i,by simp only [copyInNext, pc, here]; exact if_pos ⟨lt,new⟩⟩,?_⟩
      have := missing_insert_lt lt new
      simp only [PushPC.work, State.writerTo]
      omega

theorem push_advances (moved : α → α) (h : Inv cfg s σ T) (busy : s.writer ≠ .idle) :
    ∃ a t, (a.byProducer = true ∧ a.goesOn = true) ∧ next cfg moved a s = some t ∧ t.writer.work < s.writer.work := by
  obtain ⟨t,step | ⟨i,step⟩,less⟩ := producerNext_falls h busy
  · exact ⟨.producer,t,⟨rfl,rfl⟩,step,less⟩
  · exact ⟨.copyIn i,t,⟨rfl,rfl⟩,step,less⟩

theorem consumerNext_falls (moved : α → α) (h : Inv cfg s σ T) (busy : s.reader ≠ .idle) : ∃ t,
    (consumerNext cfg moved s = some t ∨ ∃ i, copyOutNext cfg moved i s = some t) ∧ t.reader.work < s.reader.work := by
  have reader := h.reader
  cases pc : s.reader <;> simp only [consumerNext, pc]
  case idle => exact absurd pc busy
  case popHead tail =>
    split
    · exact ⟨_,.inl rfl,Nat.succ_pos 2⟩
    · exact ⟨_,.inl rfl,Nat.lt_succ_self 2⟩
  case batchTail out => exact ⟨_,.inl rfl,Nat.lt_succ_of_le (popLoop_work ..)⟩
  case batchHead out buf read tail =>
    rw [pc] at reader
    have more := reader.2.2.1
    split
    · exact ⟨_,.inl rfl,Nat.succ_pos _⟩
    · refine ⟨_,.inl rfl,?_⟩
      simp only [PopPC.work, State.readerTo, missing_empty]
      omega
  case batchCopy out buf read tail toRead done =>
    rcases copy_left toRead done with all | ⟨i,lt,new⟩
    · refine ⟨_,.inl (if_pos all),lt_of_le_of_lt (popLoop_work ..) ?_⟩
      simp only [PopPC.work]
      omega
    · refine ⟨_,.inr ⟨i,by simp only [copyOutNext, pc]; exact if_pos ⟨lt,new⟩⟩,?_⟩
      have := missing_insert_lt lt new
      simp only [PopPC.work, State.readerTo]
      omega
  case discardHead count tail =>
    split
    · exact ⟨_,.inl rfl,Nat.lt_succ_self 1⟩
    · exact ⟨_,.inl rfl,Nat.succ_pos 1⟩
  -- the other steps go straight on to the next program counter
  all_goals exact ⟨_,.inl rfl,by simp only [PopPC.work, State.readerTo]; decide⟩

theorem pop_advances (moved : α → α) (h : Inv cfg s σ T) (busy : s.reader ≠ .idle) :
    ∃ a t, (a.byProducer = false ∧ a.goesOn = true) ∧ next cfg moved a s = some t ∧ t.reader.work < s.reader.work := by
  obtain ⟨t,step | ⟨i,step⟩,less⟩ := consumerNext_falls moved h busy
  · exact ⟨.consumer,t,⟨rfl,rfl⟩,step,less⟩
  · exact ⟨.copyOut i,t,⟨rfl,rfl⟩,step,less⟩

end

/-- The history is one of the queue, so values leave in order and each once; the indices say how many there are; between
two consumer calls every element is where `Peek` and `At` point; and every call returns by its own steps. -/
structure IsFifo (cfg : Config) (M : Machine (State α) (Act α)) (s : State α) : Prop where
  replayed : ∃ σ, Replays cfg.bufferSize .empty s.events σ ∧ σ.queue.length ≤ cfg.bufferSize ∧
    σ.gone ++ σ.queue = s.events.flatMap Event.entered ∧
    subTo cfg.width s.mem.head s.mem.tail = σ.queue.length ∧
    (s.reader = .idle → ∀ i < σ.queue.length,
      σ.queue[i]? = some (s.mem.data (wrapTo cfg.sizeWidth (s.mem.tail + i) &&& cfg.kMask)))
  pushReturns : ∃ as t, (∀ a ∈ as, a.byProducer = true ∧ a.goesOn = true) ∧
    as.length ≤ s.writer.work ∧ M.exec as s = some t ∧ t.writer = .idle
  popReturns : ∃ as t, (∀ a ∈ as, a.byProducer = false ∧ a.goesOn = true) ∧
    as.length ≤ s.reader.work ∧ M.exec as s = some t ∧ t.reader = .idle

theorem indexFits_of_goesOn {a : Act α} (inside : a.goesOn = true) : indexFits cfg s a := by
  cases a
  case elementAt => cases inside
  all_goals trivial

/-- **The ring refines a bounded queue**, for every size and index type and every interleaving of one producer
and one consumer. -/
theorem ringbuffer_refines_fifo (h : Reach (machine cfg moved data) (indexFits cfg) s) :
    IsFifo cfg (machine cfg moved data) s := by
  obtain ⟨σ,T,inv⟩ := reach_inv h
  constructor
  case replayed =>
    refine ⟨σ,inv.replayed,inv.room,?_,?_,?_⟩
    · rw [inv.replayed.balance]
      rfl
    · rw [inv.head, inv.tail, inv.length_eq]
    · intro idle i lt
      rw [inv.tail, cfg.place_eq]
      exact inv.element lt (by rw [idle]; exact Finset.notMem_empty i)
  case pushReturns =>
    refine Machine.finishes_keeping (M := machine cfg moved data) (I := fun s => ∃ σ T, Inv cfg s σ T)
      (fun s => s.writer.work) ?_ s ⟨σ,T,inv⟩
    rintro s ⟨σ,T,inv⟩ busy
    obtain ⟨a,t,mine,step,less⟩ := push_advances moved inv busy
    exact ⟨a,t,mine,step,less,next_inv inv (indexFits_of_goesOn mine.2) step⟩
  case popReturns =>
    refine Machine.finishes_keeping (M := machine cfg moved data) (I := fun s => ∃ σ T, Inv cfg s σ T)
      (fun s => s.reader.work) ?_ s ⟨σ,T,inv⟩
    rintro s ⟨σ,T,inv⟩ busy
    obtain ⟨a,t,mine,step,less⟩ := pop_advances moved inv busy
    exact ⟨a,t,mine,step,less,next_inv inv (indexFits_of_goesOn mine.2) step⟩

/-- A ring of two elements that are moved, with 32-bit indices. -/
def movingPair : Config where
  logSize := 1
  width := 32
  sizeWidth := 64
  triviallyCopyable := false
  wide := by decide
  index_le_size := by decide
  fits := by decide

/-- A batch of four fills the ring, goes on behind a `Pop`, stops at a full ring, and is read by a batch that asks for
more. -/
def overlapping : List (Act Nat) :=
  [.pushBatch [1, 2, 3, 4], .producer, .producer, .copyIn 1, .pop, .consumer, .copyIn 0, .producer,
    .consumer, .consumer, .consumer, .producer, .copyIn 0, .producer, .producer,
    .elementAt 1, .consumer, .consumer, .peek, .consumer, .consumer,
    .popBatch [7, 7, 7], .consumer, .consumer, .copyOut 1, .copyOut 0, .consumer, .consumer]

def overlappingEvents : List (Event Nat) :=
  [.loadTail, .pushChunk [1, 2], .loadHead, .pop (some 1), .loadTail, .pushChunk [3], .loadTail,
    .pushBatch [1, 2, 3, 4] 3, .loadHead, .elementAt 1 (some 3), .loadHead, .peek (some 2), .loadHead,
    .popChunk 2, .loadHead, .popBatch [7, 7, 7] 2 [2, 3, 7]]

theorem ringbuffer_refines_fifo_overlapping : ∃ s : State Nat,
    Reach (machine movingPair (fun _ => 0) (fun _ => 9)) (indexFits movingPair) s ∧
    s.events = overlappingEvents ∧ IsFifo movingPair (machine movingPair (fun _ => 0) (fun _ => 9)) s := by
  have sound : ∀ (s : State Nat) (a : Act Nat), (match a with
      | .elementAt index => decide (index < 2 ^ movingPair.width)
      | _ => true) = true → indexFits movingPair s a := by
    intro s a passes
    cases a
    case elementAt =>
      have fits := of_decide_eq_true passes
      exact fits
    all_goals trivial
  obtain ⟨s,reached,final⟩ := reach_of_run (machine movingPair (fun _ => 0) (fun _ => 9)) sound overlapping
      (fun s => s.events = overlappingEvents) (by decide +kernel)
  exact ⟨s,reached,final,ringbuffer_refines_fifo reached⟩

end Newosp.Ringbuffer
