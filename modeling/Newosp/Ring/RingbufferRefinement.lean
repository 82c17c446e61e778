import Newosp.Ring.BoundedFifo

/-!
# `SpscRingbuffer` is a bounded queue

Positions are followed as unbounded numbers: the oldest element is at `T`, the next one to push at `T` plus the length
of the queue. The producer stores less than one lap ahead of the oldest element. The consumer stores only where it moves
an element out that it then takes off the queue.
-/

namespace Newosp.Ringbuffer
open Lib List Function

variable {α : Type} {n i head written : Nat} {pc : PopPC α} {p : Nat} {data : Nat → α}

namespace Config

variable {cfg : Config}

theorem bufferSize_lt : cfg.bufferSize < 2 ^ cfg.width := by
  have fits := cfg.fits
  rw [Nat.shiftRight_one] at fits
  rw [bufferSize]
  have := Nat.two_pow_pos cfg.logSize
  omega

theorem bufferSize_pos : 0 < cfg.bufferSize := Nat.two_pow_pos _

theorem logSize_le : cfg.logSize ≤ cfg.width := le_of_lt ((Nat.pow_lt_pow_iff_right (by decide)).1 bufferSize_lt)

theorem wrap_kMask (p : Nat) : wrapTo cfg.width p &&& cfg.kMask = p % cfg.bufferSize := wrapTo_mask logSize_le p

theorem and_kMask (p : Nat) : p &&& cfg.kMask = p % cfg.bufferSize := and_mask ..

theorem place_eq (p i : Nat) :
    wrapTo cfg.sizeWidth (wrapTo cfg.width p + i) &&& cfg.kMask = (p + i) % cfg.bufferSize := by
  have wide : wrapTo cfg.sizeWidth (wrapTo cfg.width p + i) &&& cfg.kMask =
      (wrapTo cfg.width p + i) % cfg.bufferSize :=
    wrapTo_mask (le_trans cfg.logSize_le cfg.index_le_size) _
  rw [wide, Nat.add_mod, ← and_kMask (wrapTo cfg.width p), wrap_kMask, ← Nat.add_mod]

/-- The split copy and the masked loop agree. -/
theorem slot_eq (fits : n ≤ cfg.bufferSize) (lt : i < n) :
    cfg.slot (p % cfg.bufferSize) n i = (p + i) % cfg.bufferSize := by
  have small := Nat.mod_lt p cfg.bufferSize_pos
  rw [slot, and_kMask, Nat.mod_add_mod, ← Nat.mod_add_mod p]
  generalize p % cfg.bufferSize = offset at small ⊢
  generalize cfg.bufferSize = size at small fits ⊢
  split
  · simp only
    split
    · rw [Nat.mod_eq_of_lt (by omega)]
    · rw [Nat.mod_eq_sub_mod (by omega), Nat.mod_eq_of_lt (by omega)]
      omega
  · rfl

theorem taken_of_ne {moved : α → α} {j j' : Nat} (ne : j' ≠ j) : cfg.taken moved data j j' = data j' := by
  unfold taken
  split
  · rfl
  · exact update_of_ne ne ..

end Config

variable {cfg : Config} {T : Nat} {s s' : State α} {σ : Fifo α} {buf : List α} {value : α} {copied : Finset Nat}

section

variable (cfg)

/-- The elements of the queue that the consumer has moved out of the array and not yet taken off. -/
def PopPC.taken : PopPC α → Finset Nat
  | .popStore .. => {0}
  | .batchCopy _ _ _ _ _ copied => copied
  | _ => ∅

/-- The array holds the queue, apart from what is moved out. -/
def Holds (data : Nat → α) (T : Nat) (queue : List α) (taken : Finset Nat) : Prop :=
  ∀ i v, queue[i]? = some v → i ∉ taken → data ((T + i) % cfg.bufferSize) = v

def Room (H T : Nat) (space : Option Nat) (n : Nat) : Prop :=
  ∃ room, space = some room ∧ n ≤ room ∧ H + room ≤ T + cfg.bufferSize

/-- What the producer relies on; `H` is the next position to push. -/
def WriterOk (data : Nat → α) (H T : Nat) (space : Option Nat) (pushed : List α) : PushPC α → Prop
  | .idle | .loadHead _ | .batchHead _ => pushed = []
  | .loadTail _ head => head = wrapTo cfg.width H ∧ pushed = []
  | .fill _ head => head = wrapTo cfg.width H ∧ pushed = [] ∧ Room cfg H T space 1
  | .storeHead value head => head = wrapTo cfg.width H ∧ pushed = [] ∧ Room cfg H T space 1 ∧
      data (H % cfg.bufferSize) = value
  | .batchTail buf written head => head = wrapTo cfg.width H ∧ pushed = buf.take written ∧ written < buf.length
  | .batchCopy buf written head toWrite copied => head = wrapTo cfg.width H ∧ pushed = buf.take written ∧
      written + toWrite ≤ buf.length ∧ Room cfg H T space toWrite ∧
      CopiedTo cfg.bufferSize data H ((buf.drop written).take toWrite) copied

def Found (queue : List α) (seen : Option Nat) (n : Nat) : Prop :=
  ∃ available, seen = some available ∧ n ≤ available ∧ available ≤ queue.length

def ReaderOk (queue : List α) (seen : Option Nat) (popped : List α) (T : Nat) : PopPC α → Prop
  | .idle | .popTail | .batchTail _ | .discardTail _ | .peekTail | .clearHead => popped = []
  | .popHead tail | .discardHead _ tail | .peekHead tail => tail = wrapTo cfg.width T ∧ popped = []
  | .popTake tail => tail = wrapTo cfg.width T ∧ popped = [] ∧ Found queue seen 1
  | .popStore value tail => tail = wrapTo cfg.width T ∧ popped = [] ∧ Found queue seen 1 ∧ queue[0]? = some value
  | .batchHead out buf read tail => tail = wrapTo cfg.width T ∧ popped.length = read ∧ read < out.length ∧
      buf = popped ++ out.drop read
  | .batchCopy out buf read tail toRead copied => tail = wrapTo cfg.width T ∧ popped.length = read ∧
      read + toRead ≤ out.length ∧ Found queue seen toRead ∧
      ∃ current, buf = popped ++ current ∧ Filled (queue.take toRead) (out.drop read) current copied
  | .discardStore count tail toDiscard => tail = wrapTo cfg.width T ∧ popped = [] ∧
      ∃ available, seen = some available ∧ available ≤ queue.length ∧ toDiscard = min count available
  | .atTail index => popped = [] ∧ index < 2 ^ cfg.width
  | .atHead index tail => tail = wrapTo cfg.width T ∧ popped = [] ∧ index < 2 ^ cfg.width
  | .clearStore head => popped = [] ∧ ∃ available, seen = some available ∧ available ≤ queue.length ∧
      head = wrapTo cfg.width (T + available)

/-- The state of the ring when it stands for `σ` and the oldest element is at position `T`. -/
structure Inv (s : State α) (σ : Fifo α) (T : Nat) : Prop where
  replayed : Replays cfg.bufferSize .empty s.events σ
  tail : s.mem.tail = wrapTo cfg.width T
  head : s.mem.head = wrapTo cfg.width (T + σ.queue.length)
  room : σ.queue.length ≤ cfg.bufferSize
  holds : Holds cfg s.mem.data T σ.queue s.reader.taken
  writer : WriterOk cfg s.mem.data (T + σ.queue.length) T σ.space σ.pushed s.writer
  reader : ReaderOk cfg σ.queue σ.seen σ.popped T s.reader

end

section

variable {data data' : Nat → α} {H T' : Nat} {space seen : Option Nat} {queue pushed popped : List α} {n : Nat}

theorem Room.mono (h : Room cfg H T space n) (le : T ≤ T') : Room cfg H T' space n := by
  obtain ⟨room,eq,enough,fits⟩ := h
  exact ⟨room,eq,enough,by omega⟩

theorem WriterOk.mono {pc : PushPC α} (h : WriterOk cfg data H T space pushed pc) (le : T ≤ T')
    (agree : ∀ p, H ≤ p → p < T + cfg.bufferSize → data' (p % cfg.bufferSize) = data (p % cfg.bufferSize)) :
    WriterOk cfg data' H T' space pushed pc := by
  cases pc with
  | fill callback head => exact ⟨h.1,h.2.1,h.2.2.mono le⟩
  | storeHead value head =>
    obtain ⟨eq,none,room,stored⟩ := h
    obtain ⟨_,_,enough,fits⟩ := id room
    exact ⟨eq,none,room.mono le,(agree H le_rfl (by omega)).trans stored⟩
  | batchCopy buf written head toWrite copied =>
    obtain ⟨eq,before,inside,room,copy⟩ := h
    obtain ⟨_,_,enough,fits⟩ := id room
    refine ⟨eq,before,inside,room.mono le,?_⟩
    intro i member x here
    have lt := (List.getElem?_eq_some_iff.1 here).1
    have short := length_take_le toWrite (buf.drop written)
    rw [agree _ (Nat.le_add_right ..) (by omega)]
    exact copy i member x here
  | _ => exact h

theorem Found.push (h : Found queue seen n) (vs : List α) : Found (queue ++ vs) seen n := by
  obtain ⟨available,eq,enough,le⟩ := h
  refine ⟨available,eq,enough,?_⟩
  rw [length_append]
  omega

theorem take_push (h : Found queue seen n) (vs : List α) : (queue ++ vs).take n = queue.take n := by
  obtain ⟨available,eq,enough,le⟩ := h
  exact take_append_of_le_length (by omega)

theorem ReaderOk.push (h : ReaderOk cfg queue seen popped T pc) (vs : List α) :
    ReaderOk cfg (queue ++ vs) seen popped T pc := by
  have longer : queue.length ≤ (queue ++ vs).length := by
    rw [length_append]
    omega
  cases pc with
  | popTake tail => exact ⟨h.1,h.2.1,h.2.2.push vs⟩
  | popStore value tail =>
    obtain ⟨eq,none,found,first⟩ := h
    refine ⟨eq,none,found.push vs,?_⟩
    rw [getElem?_append_left (List.getElem?_eq_some_iff.1 first).1]
    exact first
  | batchCopy out buf read tail toRead copied =>
    obtain ⟨eq,done,inside,found,filled⟩ := h
    refine ⟨eq,done,inside,found.push vs,?_⟩
    rwa [take_push found]
  | discardStore count tail toDiscard =>
    obtain ⟨eq,none,available,saw,le,min⟩ := h
    exact ⟨eq,none,available,saw,by omega,min⟩
  | clearStore head =>
    obtain ⟨none,available,saw,le,eq⟩ := h
    exact ⟨none,available,saw,by omega,eq⟩
  | _ => exact h

end

section

variable {τ : Fifo α} {entered : List (Event α)} {pc : PushPC α} (h : Inv cfg s σ T)
include h

theorem Inv.writer_at {now : PushPC α} (pc : s.writer = now) :
    WriterOk cfg s.mem.data (T + σ.queue.length) T σ.space σ.pushed now := pc ▸ h.writer

theorem Inv.reader_at {now : PopPC α} (pc : s.reader = now) : ReaderOk cfg σ.queue σ.seen σ.popped T now := pc ▸ h.reader

theorem Inv.writerTo (entry : Replays cfg.bufferSize σ entered τ) (queue : τ.queue = σ.queue)
    (seen : τ.seen = σ.seen) (popped : τ.popped = σ.popped)
    (ok : WriterOk cfg s.mem.data (T + σ.queue.length) T τ.space τ.pushed pc) :
    Inv cfg (s.writerTo pc entered) τ T where
  replayed := h.replayed.append entry
  tail := h.tail
  head := queue ▸ h.head
  room := queue ▸ h.room
  holds := queue ▸ h.holds
  writer := queue ▸ ok
  reader := queue ▸ seen ▸ popped ▸ h.reader

theorem Inv.readerTo {now pc : PopPC α} (here : s.reader = now) (fresh : now.taken = ∅)
    (entry : Replays cfg.bufferSize σ entered τ) (queue : τ.queue = σ.queue) (space : τ.space = σ.space) (pushed : τ.pushed = σ.pushed)
    (ok : ReaderOk cfg σ.queue τ.seen τ.popped T pc) : Inv cfg (s.readerTo pc entered) τ T where
  replayed := h.replayed.append entry
  tail := h.tail
  head := queue ▸ h.head
  room := queue ▸ h.room
  holds := by
    intro i v element _
    rw [queue] at element
    exact h.holds i v element (by rw [here, fresh]; exact Finset.notMem_empty i)
  writer := queue ▸ space ▸ pushed ▸ h.writer
  reader := queue ▸ ok

theorem Inv.fill {v : α} (ahead : T + σ.queue.length ≤ p) (lap : p < T + cfg.bufferSize)
    (ok : WriterOk cfg (update s.mem.data (p % cfg.bufferSize) v) (T + σ.queue.length) T σ.space σ.pushed pc) :
    Inv cfg ((s.setData (update s.mem.data (p % cfg.bufferSize) v)).writerTo pc []) σ T where
  replayed := h.replayed.append (.nil σ)
  tail := h.tail
  head := h.head
  room := h.room
  holds := by
    intro i w here kept
    have lt := (List.getElem?_eq_some_iff.1 here).1
    refine (update_of_ne ?_ ..).trans (h.holds i w here kept)
    exact index_ne (by omega) (by omega) (by omega)
  writer := ok
  reader := h.reader

theorem Inv.take (moved : α → α) {pc : PopPC α} {j : Nat} (inside : j < σ.queue.length)
    (grows : pc.taken = insert j s.reader.taken) (ok : ReaderOk cfg σ.queue σ.seen σ.popped T pc) :
    Inv cfg ((s.setData (cfg.taken moved s.mem.data ((T + j) % cfg.bufferSize))).readerTo pc []) σ T where
  replayed := h.replayed.append (.nil σ)
  tail := h.tail
  head := h.head
  room := h.room
  holds := by
    intro i w here kept
    have lt := (List.getElem?_eq_some_iff.1 here).1
    have room := h.room
    replace kept : i ∉ pc.taken := kept
    rw [grows, Finset.mem_insert, not_or] at kept
    refine (Config.taken_of_ne ?_).trans (h.holds i w here kept.2)
    exact index_ne (by omega) (by omega) (by omega)
  writer := by
    have room := h.room
    apply h.writer.mono (le_refl T)
    intro p ahead lap
    exact Config.taken_of_ne (index_ne (by omega) (by omega) (by omega))
  reader := ok

theorem Inv.publish {vs : List α} (count : vs.length = n)
    (entry : Replays cfg.bufferSize σ entered τ) (queue : τ.queue = σ.queue ++ vs) (seen : τ.seen = σ.seen)
    (popped : τ.popped = σ.popped) (fits : σ.queue.length + n ≤ cfg.bufferSize)
    (stored : Shows cfg.bufferSize s.mem.data (T + σ.queue.length) vs)
    (ok : WriterOk cfg s.mem.data (T + τ.queue.length) T τ.space τ.pushed pc) :
    Inv cfg ((s.setHead (wrapTo cfg.width (wrapTo cfg.width (T + σ.queue.length) + n))).writerTo pc entered) τ T where
  replayed := h.replayed.append entry
  tail := h.tail
  head := by
    rw [queue, length_append, count, ← add_assoc]
    exact wrapTo_add_left ..
  room := by
    rw [queue, length_append, count]
    exact fits
  holds := by
    intro i v here kept
    rw [queue] at here
    rcases lt_or_ge i σ.queue.length with old | new
    · rw [getElem?_append_left old] at here
      exact h.holds i v here kept
    · rw [getElem?_append_right new] at here
      have found := stored _ v here
      rwa [show T + σ.queue.length + (i - σ.queue.length) = T + i by omega] at found
  writer := ok
  reader := by
    rw [queue, seen, popped]
    exact h.reader.push vs

theorem Inv.consume {pc : PopPC α} (inside : n ≤ σ.queue.length) (taken : ∀ i ∈ s.reader.taken, i < n)
    (entry : Replays cfg.bufferSize σ entered τ) (queue : τ.queue = σ.queue.drop n) (space : τ.space = σ.space)
    (pushed : τ.pushed = σ.pushed) (ok : ReaderOk cfg τ.queue τ.seen τ.popped (T + n) pc) :
    Inv cfg ((s.setTail (wrapTo cfg.width (T + n))).readerTo pc entered) τ (T + n) where
  replayed := h.replayed.append entry
  tail := rfl
  head := by
    rw [queue, length_drop, show T + n + (σ.queue.length - n) = T + σ.queue.length by omega]
    exact h.head
  room := by
    have room := h.room
    rw [queue, length_drop]
    omega
  holds := by
    intro i v here _
    rw [queue, getElem?_drop] at here
    rw [add_assoc]
    apply h.holds _ v here
    intro member
    have := taken _ member
    omega
  writer := by
    rw [queue, space, pushed, length_drop, show T + n + (σ.queue.length - n) = T + σ.queue.length by omega]
    exact h.writer.mono (Nat.le_add_right ..) (fun _ _ _ => rfl)
  reader := ok

end

section

theorem WriterOk.batchTail_of_lt {H : Nat} {space : Option Nat} (lt : written < buf.length) :
    WriterOk cfg data H T space (buf.take written) (.batchTail buf written (wrapTo cfg.width H)) := ⟨rfl, rfl, lt⟩

variable (h : Inv cfg s σ T)
include h

theorem Inv.length_eq :
    subTo cfg.width (wrapTo cfg.width (T + σ.queue.length)) (wrapTo cfg.width T) = σ.queue.length := by
  have room := h.room
  have word := cfg.bufferSize_lt
  rw [subTo_wrapTo (Nat.le_add_right ..) (by omega), Nat.add_sub_cancel_left]

theorem Inv.space_eq :
    subTo cfg.width cfg.bufferSize (subTo cfg.width (wrapTo cfg.width (T + σ.queue.length)) s.mem.tail) =
      cfg.bufferSize - σ.queue.length := by
  rw [h.tail, h.length_eq, subTo_of_le cfg.bufferSize_lt h.room]

theorem beginPush_step {pc : PushPC α} (step : s.beginPush pc = some s')
    (ok : σ.pushed = [] → WriterOk cfg s.mem.data (T + σ.queue.length) T σ.space σ.pushed pc) : Inv cfg s' σ T := by
  have writer := h.writer
  unfold State.beginPush at step
  split at step
  · rename_i idle
    rw [idle] at writer
    cases step
    exact h.writerTo (.nil σ) rfl rfl rfl (ok writer)
  · cases step

theorem copyIn_step (step : copyInNext cfg i s = some s') : Inv cfg s' σ T := by
  have writer := h.writer
  unfold copyInNext at step
  split at step
  · rename_i buf written head toWrite copied pc
    rw [pc] at writer
    obtain ⟨rfl,before,inside,room,copy⟩ := writer
    obtain ⟨_,_,enough,fits⟩ := id room
    obtain ⟨next,step⟩ := enabled step
    split at step
    · rename_i value here
      have entry : ((buf.drop written).take toWrite)[i]? = some value := by
        rw [getElem?_take_of_lt next.1, getElem?_drop]
        exact here
      have short := length_take_le toWrite (buf.drop written)
      simp only [Config.wrap_kMask, cfg.slot_eq (show toWrite ≤ cfg.bufferSize by omega) next.1] at step
      cases step
      apply h.fill (Nat.le_add_right ..) (by omega)
      exact ⟨rfl,before,inside,room,copy.insert (by omega) entry⟩
    · cases step
  · cases step

variable (step : producerNext cfg s = some s')
include step

theorem pushCheck_step {callback : Unit → α} (pc : s.writer = .loadTail callback head) : ∃ τ, Inv cfg s' τ T := by
  obtain ⟨rfl,none⟩ := h.writer_at pc
  have room := h.room
  simp only [producerNext, pc, h.tail, h.length_eq] at step
  split at step
  · rename_i full
    cases step
    refine ⟨_,h.writerTo (replays_two (.loadTail σ) (.pushFull ?_)) rfl rfl rfl none⟩
    rw [full, Nat.sub_self]
  · rename_i free
    cases step
    refine ⟨_,h.writerTo (replays_one (.loadTail σ)) rfl rfl rfl ⟨rfl,none,_,rfl,?_,?_⟩⟩
    · omega
    · omega

theorem push_step (pc : s.writer = .storeHead value head) : ∃ τ, Inv cfg s' τ T := by
  obtain ⟨rfl,none,⟨room,space,enough,fits⟩,stored⟩ := h.writer_at pc
  simp only [producerNext, pc] at step
  cases step
  refine ⟨_,h.publish (length_singleton ..) (replays_one (.push space enough)) (pushAll_eq ..) rfl rfl
    (by omega) ?_ none⟩
  intro i v here
  obtain ⟨rfl,rfl⟩ : i = 0 ∧ v = value := by
    cases i with
    | zero => exact ⟨rfl,(Option.some.inj here).symm⟩
    | succ i => cases here
  exact stored

theorem batchBegin_step (pc : s.writer = .batchHead buf) : ∃ τ, Inv cfg s' τ T := by
  have writer : σ.pushed = buf.take 0 := h.writer_at pc
  simp only [producerNext, pc, h.head, State.pushLoop] at step
  split at step
  · rename_i more
    cases step
    refine ⟨_,h.writerTo (.nil σ) rfl rfl rfl ?_⟩
    rw [writer]
    exact .batchTail_of_lt more
  · rename_i finished
    cases step
    refine ⟨_,h.writerTo (replays_one (.pushBatch writer (Nat.zero_le _) ?_)) rfl rfl rfl rfl⟩
    intro more
    exact absurd more finished

theorem batchCheck_step (pc : s.writer = .batchTail buf written head) : ∃ τ, Inv cfg s' τ T := by
  obtain ⟨rfl,before,more⟩ := h.writer_at pc
  have room := h.room
  simp only [producerNext, pc, h.space_eq] at step
  split at step
  · rename_i full
    cases step
    refine ⟨_,h.writerTo (replays_two (.loadTail σ) (.pushBatch before (le_of_lt more) ?_)) rfl rfl rfl rfl⟩
    intro _
    rw [full]
  · cases step
    refine ⟨_,h.writerTo (replays_one (.loadTail σ)) rfl rfl rfl
      ⟨rfl,before,?_,⟨_,rfl,min_le_right ..,?_⟩,copiedTo_empty⟩⟩
    · omega
    · omega

theorem batchStore_step {toWrite : Nat}
    (pc : s.writer = .batchCopy buf written head toWrite copied) : ∃ τ, Inv cfg s' τ T := by
  obtain ⟨rfl,before,inside,⟨room,space,enough,fits⟩,copy⟩ := h.writer_at pc
  have length : ((buf.drop written).take toWrite).length = toWrite := by
    rw [length_take, length_drop]
    omega
  have after : σ.pushed ++ (buf.drop written).take toWrite = buf.take (written + toWrite) := by
    rw [before, take_add]
  have chunk : Accepts cfg.bufferSize σ (.pushChunk ((buf.drop written).take toWrite)) _ :=
    .pushChunk space (by omega)
  simp only [producerNext, pc] at step
  obtain ⟨all,step⟩ := enabled step
  have shows := copy.shows (by rwa [length])
  have grown := wrapTo_add_left (w := cfg.width) (T + σ.queue.length) toWrite
  simp only [State.pushLoop] at step
  split at step
  · rename_i more
    cases step
    refine ⟨_,h.publish length (replays_one chunk) (pushAll_eq ..) rfl rfl (by omega) shows ?_⟩
    rw [after, pushAll_eq, length_append, length, grown, ← add_assoc]
    exact .batchTail_of_lt more
  · rename_i finished
    cases step
    have returns := replays_two chunk (.pushBatch after inside fun more => absurd more finished)
    exact ⟨_,h.publish length returns (pushAll_eq ..) rfl rfl (by omega) shows rfl⟩

theorem producer_step : ∃ τ, Inv cfg s' τ T := by
  have writer := h.writer
  cases pc : s.writer with
  | idle =>
    simp only [producerNext, pc] at step
    cases step
  | loadHead callback =>
    simp only [producerNext, pc] at step
    cases step
    rw [pc] at writer
    exact ⟨_,h.writerTo (.nil σ) rfl rfl rfl ⟨h.head,writer⟩⟩
  | loadTail callback head => exact pushCheck_step h step pc
  | fill callback head =>
    rw [pc] at writer
    obtain ⟨rfl,none,room⟩ := writer
    obtain ⟨_,_,enough,fits⟩ := id room
    simp only [producerNext, pc, Config.wrap_kMask] at step
    cases step
    exact ⟨σ,h.fill le_rfl (by omega) ⟨rfl,none,room,update_self ..⟩⟩
  | storeHead value head => exact push_step h step pc
  | batchHead buf => exact batchBegin_step h step pc
  | batchTail buf written head => exact batchCheck_step h step pc
  | batchCopy buf written head toWrite copied => exact batchStore_step h step pc

end

section

variable {moved : α → α} {tail : Nat} {out : List α} (h : Inv cfg s σ T)
include h

theorem beginPop_step (step : s.beginPop pc = some s')
    (ok : σ.popped = [] → ReaderOk cfg σ.queue σ.seen σ.popped T pc) : Inv cfg s' σ T := by
  have reader := h.reader
  unfold State.beginPop at step
  split at step
  · rename_i idle
    rw [idle] at reader
    cases step
    exact h.readerTo idle rfl (.nil σ) rfl rfl rfl (ok reader)
  · cases step

/-- The consumer's indices are equal iff nothing is left. -/
theorem Inv.tail_eq_head : wrapTo cfg.width T = s.mem.head ↔ σ.queue = [] := by
  have room := h.room
  have word := cfg.bufferSize_lt
  rw [h.head, ← length_eq_zero_iff]
  constructor
  · intro same
    have := wrapTo_inj (by omega) (by omega) same
    omega
  · intro empty
    rw [empty, add_zero]

theorem Inv.element (lt : i < σ.queue.length) (kept : i ∉ s.reader.taken) :
    σ.queue[i]? = some (s.mem.data ((T + i) % cfg.bufferSize)) := by
  have here : σ.queue[i]? = some σ.queue[i] := getElem?_eq_getElem lt
  rw [h.holds i _ here kept]
  exact here

theorem copyOut_step (step : copyOutNext cfg moved i s = some s') : Inv cfg s' σ T := by
  have reader := h.reader
  unfold copyOutNext at step
  split at step
  · rename_i out buf read tail toRead copied pc
    rw [pc] at reader
    obtain ⟨rfl,done,inside,found,current,buffer,filled⟩ := reader
    obtain ⟨_,_,enough,le⟩ := id found
    have room := h.room
    obtain ⟨next,step⟩ := enabled step
    have here := h.element (i := i) (by omega) (by rw [pc]; exact next.2)
    have entry : (σ.queue.take toRead)[i]? = some (s.mem.data ((T + i) % cfg.bufferSize)) := by
      rw [getElem?_take_of_lt next.1]
      exact here
    have fits : (σ.queue.take toRead).length ≤ (out.drop read).length := by
      rw [length_take, length_drop]
      omega
    simp only [Config.wrap_kMask, cfg.slot_eq (show toRead ≤ cfg.bufferSize by omega) next.1] at step
    cases step
    refine h.take moved (by omega) (by rw [pc]; rfl)
      ⟨rfl,done,inside,found,current.set i (s.mem.data ((T + i) % cfg.bufferSize)),?_,filled.set fits entry⟩
    rw [buffer, set_append_right _ _ (by omega), done, Nat.add_sub_cancel_left]
  · cases step

variable (step : consumerNext cfg moved s = some s')
include step

theorem popCheck_step (pc : s.reader = .popHead tail) : ∃ τ, Inv cfg s' τ T := by
  obtain ⟨rfl,none⟩ := h.reader_at pc
  simp only [consumerNext, pc, h.tail_eq_head] at step
  split at step
  · rename_i empty
    cases step
    refine ⟨_,h.readerTo pc rfl (replays_two (.loadHead σ) (.popEmpty ?_)) rfl rfl rfl none⟩
    rw [empty, length_nil]
  · rename_i some
    cases step
    refine ⟨_,h.readerTo pc rfl (replays_one (.loadHead σ)) rfl rfl rfl ⟨rfl,none,_,rfl,?_,le_rfl⟩⟩
    exact length_pos_of_ne_nil some

theorem popTake_step (pc : s.reader = .popTake tail) : Inv cfg s' σ T := by
  obtain ⟨rfl,none,found⟩ := h.reader_at pc
  obtain ⟨_,_,enough,le⟩ := id found
  have first := h.element (i := 0) (by omega) (by rw [pc]; exact Finset.notMem_empty 0)
  simp only [consumerNext, pc, Config.wrap_kMask] at step
  cases step
  refine h.take moved (j := 0) (by omega) ?_ ⟨rfl,none,found,first⟩
  rw [pc]
  rfl

theorem pop_step (pc : s.reader = .popStore value tail) : ∃ τ T', Inv cfg s' τ T' := by
  obtain ⟨rfl,none,⟨available,saw,enough,le⟩,first⟩ := h.reader_at pc
  simp only [consumerNext, pc, wrapTo_add_left] at step
  cases step
  refine ⟨_,_,h.consume (n := 1) (by omega) ?_ (replays_one (.pop saw enough ?_)) (Fifo.remove_queue ..) rfl
    rfl none⟩
  · intro i member
    rw [pc] at member
    rw [Finset.mem_singleton.1 member]
    decide
  · rw [popMany_eq]
    obtain ⟨rest,eq⟩ : ∃ rest, σ.queue = value :: rest := by
      rw [← head?_eq_getElem?] at first
      exact head?_eq_some_iff.1 first
    rw [eq]
    rfl

theorem popBatchBegin_step (pc : s.reader = .batchTail out) : ∃ τ, Inv cfg s' τ T := by
  have reader : σ.popped = [] := h.reader_at pc
  have whole : out = σ.popped ++ out.drop 0 := by rw [reader, drop_zero, nil_append]
  have none : σ.popped.length = 0 := by rw [reader, length_nil]
  simp only [consumerNext, pc, h.tail, State.popLoop] at step
  split at step
  · rename_i more
    cases step
    exact ⟨_,h.readerTo pc rfl (.nil σ) rfl rfl rfl ⟨rfl,none,more,whole⟩⟩
  · rename_i finished
    cases step
    exact ⟨_,h.readerTo pc rfl
      (replays_one (.popBatch whole none (Nat.zero_le _) fun more => absurd more finished)) rfl rfl rfl rfl⟩

theorem popBatchCheck_step {read : Nat} (pc : s.reader = .batchHead out buf read tail) : ∃ τ, Inv cfg s' τ T := by
  obtain ⟨rfl,done,more,whole⟩ := h.reader_at pc
  simp only [consumerNext, pc, h.head, h.length_eq] at step
  split at step
  · rename_i empty
    cases step
    refine ⟨_,h.readerTo pc rfl (replays_two (.loadHead σ) (.popBatch whole done (le_of_lt more) ?_)) rfl
      rfl rfl rfl⟩
    intro _
    rw [empty]
  · cases step
    refine ⟨_,h.readerTo pc rfl (replays_one (.loadHead σ)) rfl rfl rfl
      ⟨rfl,done,?_,⟨_,rfl,min_le_right ..,le_rfl⟩,_,whole,filled_empty⟩⟩
    omega

theorem popBatchStore_step {read toRead : Nat}
    (pc : s.reader = .batchCopy out buf read tail toRead copied) : ∃ τ T', Inv cfg s' τ T' := by
  obtain ⟨rfl,done,inside,⟨available,saw,enough,le⟩,current,buffer,filled⟩ := h.reader_at pc
  have length : (σ.queue.take toRead).length = toRead := by
    rw [length_take]
    omega
  have taken : ∀ i ∈ s.reader.taken, i < toRead := by
    intro i member
    rw [pc] at member
    have := filled.inside i member
    rwa [length] at this
  have chunk : Accepts cfg.bufferSize σ (.popChunk toRead) _ := .popChunk saw enough
  simp only [consumerNext, pc, wrapTo_add_left] at step
  obtain ⟨all,step⟩ := enabled step
  have whole : buf = σ.popped ++ (popMany toRead σ.queue).1 ++ out.drop (read + toRead) := by
    rw [popMany_eq, buffer, filled.eq_append (by rwa [length]), length, drop_drop, append_assoc]
  have counted : (σ.popped ++ (popMany toRead σ.queue).1).length = read + toRead := by
    rw [popMany_eq, length_append, length, done]
  simp only [State.popLoop] at step
  split at step
  · rename_i more
    cases step
    exact ⟨_,_,h.consume (by omega) taken (replays_one chunk) (Fifo.remove_queue ..) rfl rfl
      ⟨rfl,counted,more,whole⟩⟩
  · rename_i finished
    cases step
    have returns := replays_two chunk (.popBatch whole counted inside fun more => absurd more finished)
    exact ⟨_,_,h.consume (by omega) taken returns (Fifo.remove_queue ..) rfl rfl rfl⟩

theorem discardCheck_step {count : Nat} (pc : s.reader = .discardHead count tail) : ∃ τ, Inv cfg s' τ T := by
  obtain ⟨rfl,none⟩ := h.reader_at pc
  simp only [consumerNext, pc, h.head, h.length_eq] at step
  split at step
  · cases step
    exact ⟨_,h.readerTo pc rfl (replays_one (.loadHead σ)) rfl rfl rfl ⟨rfl,none,_,rfl,le_rfl,rfl⟩⟩
  · rename_i nothing
    cases step
    refine ⟨_,h.readerTo pc rfl (replays_two (.loadHead σ) (.discard rfl)) ?_ rfl rfl none⟩
    rw [Fifo.remove_queue, show min count σ.queue.length = 0 by omega, drop_zero]

theorem peek_step (pc : s.reader = .peekHead tail) : ∃ τ, Inv cfg s' τ T := by
  obtain ⟨rfl,none⟩ := h.reader_at pc
  have result : (if wrapTo cfg.width T = s.mem.head then Option.none
      else some (s.mem.data (wrapTo cfg.width T &&& cfg.kMask))) = σ.queue[0]? := by
    simp only [h.tail_eq_head, Config.wrap_kMask]
    split
    · rename_i empty
      rw [empty, getElem?_nil]
    · rename_i some
      exact (h.element (length_pos_of_ne_nil some) (by rw [pc]; exact Finset.notMem_empty 0)).symm
  simp only [consumerNext, pc, result] at step
  cases step
  exact ⟨_,h.readerTo pc rfl (replays_two (.loadHead σ) (.peek rfl)) rfl rfl rfl none⟩

theorem elementAt_step {index : Nat} (pc : s.reader = .atHead index tail) : ∃ τ, Inv cfg s' τ T := by
  obtain ⟨rfl,none,word⟩ := h.reader_at pc
  have result : (if subTo cfg.width s.mem.head (wrapTo cfg.width T) ≤ wrapTo cfg.width index then Option.none
      else some (s.mem.data (wrapTo cfg.sizeWidth (wrapTo cfg.width T + index) &&& cfg.kMask))) =
      σ.queue[index]? := by
    rw [h.head, h.length_eq, wrapTo_of_lt word, cfg.place_eq]
    split
    · rename_i outside
      exact (getElem?_eq_none outside).symm
    · rename_i inside
      exact (h.element (by omega) (by rw [pc]; exact Finset.notMem_empty _)).symm
  simp only [consumerNext, pc, result] at step
  cases step
  exact ⟨_,h.readerTo pc rfl (replays_two (.loadHead σ) (.elementAt rfl)) rfl rfl rfl none⟩

theorem consumer_step : ∃ τ T', Inv cfg s' τ T' := by
  have reader := h.reader
  have at_T : (∃ τ, Inv cfg s' τ T) → ∃ τ T', Inv cfg s' τ T' := fun ⟨τ,kept⟩ => ⟨τ,T,kept⟩
  have whole := step
  cases pc : s.reader <;> simp only [consumerNext, pc] at step
  case idle =>
    cases step
  case popTail | discardTail _ | peekTail | atTail _ =>
    cases step
    rw [pc] at reader
    exact ⟨σ,T,h.readerTo pc rfl (.nil σ) rfl rfl rfl ⟨h.tail,reader⟩⟩
  case popHead tail => exact at_T (popCheck_step h whole pc)
  case popTake tail => exact ⟨σ,T,popTake_step h whole pc⟩
  case popStore value tail => exact pop_step h whole pc
  case batchTail out => exact at_T (popBatchBegin_step h whole pc)
  case batchHead out buf read tail => exact at_T (popBatchCheck_step h whole pc)
  case batchCopy out buf read tail toRead copied => exact popBatchStore_step h whole pc
  case discardHead count tail => exact at_T (discardCheck_step h whole pc)
  case discardStore count tail toDiscard =>
    rw [pc] at reader
    obtain ⟨rfl,none,available,saw,le,rfl⟩ := reader
    simp only [consumerNext, pc, wrapTo_add_left] at whole
    cases whole
    refine ⟨_,_,h.consume (by omega) ?_ (replays_one (.discard saw)) (Fifo.remove_queue ..) rfl rfl none⟩
    intro i member
    rw [pc] at member
    exact absurd member (Finset.notMem_empty i)
  case peekHead tail => exact at_T (peek_step h whole pc)
  case atHead index tail => exact at_T (elementAt_step h whole pc)
  case clearHead =>
    cases step
    rw [pc] at reader
    exact ⟨_,T,h.readerTo pc rfl (replays_one (.loadHead σ)) rfl rfl rfl ⟨reader,_,rfl,le_rfl,h.head⟩⟩
  case clearStore head =>
    rw [pc] at reader
    obtain ⟨none,available,saw,le,rfl⟩ := reader
    simp only [consumerNext, pc] at whole
    cases whole
    refine ⟨_,_,h.consume le ?_ (replays_one (.clear saw)) (Fifo.remove_queue ..) rfl rfl none⟩
    intro i member
    rw [pc] at member
    exact absurd member (Finset.notMem_empty i)

end

end Newosp.Ringbuffer
