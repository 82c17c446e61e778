import Newosp.Lib.ByteWindow
import Newosp.Lib.Counter
import Newosp.Lib.Machine

/-!
# `SpscRingbuffer` one access at a time

One producer in `Push`, `PushFromCallback` or `PushBatch` runs beside one consumer in `Pop`, `PopBatch`, `Discard`,
`Peek`, `At` or `ConsumerClear`. Every load and store of `head_` and `tail_` is one step; the elements of a batch are
copied one at a time, in any order and each once. `events` is a history: the loads of the other side's index, the stores
of an index, and the return of every call with its result.
-/

namespace Newosp.Ringbuffer
open Lib Function

/-- The template parameters: `BufferSize` is `2 ^ logSize`, `IndexT` has `width` bits and `size_t` `sizeWidth`. An
`IndexT` narrower than `int`, which is promoted before it is subtracted, is left out. -/
structure Config where
  logSize : Nat
  width : Nat
  sizeWidth : Nat
  triviallyCopyable : Bool
  wide : 32 ≤ width
  index_le_size : width ≤ sizeWidth
  fits : 2 ^ logSize ≤ (2 ^ width - 1) >>> 1

namespace Config

variable (cfg : Config)

def bufferSize : Nat := 2 ^ cfg.logSize

def kMask : Nat := cfg.bufferSize - 1

/-- Where element `i` of a batch of `n` goes: `memcpy` splits the batch at the end of `data_buff_`, the loop masks every
index. -/
def slot (offset n i : Nat) : Nat :=
  if cfg.triviallyCopyable then
    let firstPart := min n (cfg.bufferSize - offset)
    if i < firstPart then offset + i else i - firstPart
  else (offset + i) &&& cfg.kMask

/-- The array after slot `j` was read: a type that is not trivially copyable is moved from. -/
def taken {α : Type} (moved : α → α) (data : Nat → α) (j : Nat) : Nat → α :=
  if cfg.triviallyCopyable then data else update data j (moved (data j))

end Config

section

variable (α : Type)

structure Memory where
  head : Nat
  tail : Nat
  data : Nat → α

inductive PushPC
  | idle
  | loadHead (callback : Unit → α)
  | loadTail (callback : Unit → α) (head : Nat)
  | fill (callback : Unit → α) (head : Nat)
  | storeHead (value : α) (head : Nat)
  | batchHead (buf : List α)
  | batchTail (buf : List α) (written head : Nat)
  | batchCopy (buf : List α) (written head toWrite : Nat) (copied : Finset Nat)

/-- Program counters of the consumer; `out` is the buffer as the caller gave it, `buf` as it is. -/
inductive PopPC
  | idle
  | popTail
  | popHead (tail : Nat)
  | popTake (tail : Nat)
  | popStore (value : α) (tail : Nat)
  | batchTail (out : List α)
  | batchHead (out buf : List α) (read tail : Nat)
  | batchCopy (out buf : List α) (read tail toRead : Nat) (copied : Finset Nat)
  | discardTail (count : Nat)
  | discardHead (count tail : Nat)
  | discardStore (count tail toDiscard : Nat)
  | peekTail
  | peekHead (tail : Nat)
  | atTail (index : Nat)
  | atHead (index tail : Nat)
  | clearHead
  | clearStore (head : Nat)

/-- What the history keeps. `pushChunk` and `popChunk` are the stores of an index inside a batch. -/
inductive Event
  | loadTail
  | loadHead
  | push (value : α) (ok : Bool)
  | pushChunk (values : List α)
  | pushBatch (buf : List α) (written : Nat)
  | pop (result : Option α)
  | popChunk (count : Nat)
  | popBatch (out : List α) (read : Nat) (buf : List α)
  | discard (count discarded : Nat)
  | peek (result : Option α)
  | elementAt (index : Nat) (result : Option α)
  | clear
deriving DecidableEq

structure State where
  mem : Memory α
  writer : PushPC α
  reader : PopPC α
  events : List (Event α)

/-- Who moves: a side starts a call, takes the next step of its call, or copies element `i` of its batch. -/
inductive Act
  | push (value : α)
  | pushFromCallback (callback : Unit → α)
  | pushBatch (buf : List α)
  | producer
  | copyIn (i : Nat)
  | pop
  | popBatch (out : List α)
  | discard (count : Nat)
  | peek
  | elementAt (index : Nat)
  | consumerClear
  | consumer
  | copyOut (i : Nat)

end

variable {α : Type}

def Act.byProducer : Act α → Bool
  | .push _ | .pushFromCallback _ | .pushBatch _ | .producer | .copyIn _ => true
  | _ => false

section

variable (s : State α)

/-- The producer goes to `pc`; `entered` goes into the history. -/
def State.writerTo (pc : PushPC α) (entered : List (Event α)) : State α :=
  { s with writer := pc, events := s.events ++ entered }

/-- The consumer goes to `pc`; `entered` goes into the history. -/
def State.readerTo (pc : PopPC α) (entered : List (Event α)) : State α :=
  { s with reader := pc, events := s.events ++ entered }

def State.setHead (head : Nat) : State α := { s with mem := { s.mem with head } }

def State.setTail (tail : Nat) : State α := { s with mem := { s.mem with tail } }

def State.setData (data : Nat → α) : State α := { s with mem := { s.mem with data } }

end

section

variable (cfg : Config)

def State.beginPush (s : State α) (pc : PushPC α) : Option (State α) :=
  match s.writer with
  | .idle => some (s.writerTo pc [])
  | _ => none

def State.pushLoop (s : State α) (buf : List α) (written head : Nat) (entered : List (Event α)) : State α :=
  if written < buf.length then s.writerTo (.batchTail buf written head) entered
  else s.writerTo .idle (entered ++ [.pushBatch buf written])

/-- One step of the producer outside its batch copy. `PushImpl` is `PushFromCallback` with the value at
hand. -/
def producerNext (s : State α) : Option (State α) :=
  let m := s.mem
  match s.writer with
  | .idle => none
  | .loadHead callback => some (s.writerTo (.loadTail callback m.head) [])
  | .loadTail callback head =>
    if subTo cfg.width head m.tail = cfg.bufferSize then
      some (s.writerTo .idle [.loadTail, .push (callback ()) false])
    else some (s.writerTo (.fill callback head) [.loadTail])
  | .fill callback head =>
    some ((s.setData (update m.data (head &&& cfg.kMask) (callback ()))).writerTo
      (.storeHead (callback ()) head) [])
  | .storeHead value head =>
    some ((s.setHead (wrapTo cfg.width (head + 1))).writerTo .idle [.push value true])
  | .batchHead buf => some (s.pushLoop buf 0 m.head [])
  | .batchTail buf written head =>
    let space := subTo cfg.width cfg.bufferSize (subTo cfg.width head m.tail)
    if space = 0 then some (s.writerTo .idle [.loadTail, .pushBatch buf written])
    else some (s.writerTo (.batchCopy buf written head (min (buf.length - written) space) ∅) [.loadTail])
  | .batchCopy buf written head toWrite copied =>
    if ∀ i < toWrite, i ∈ copied then
      let head' := wrapTo cfg.width (head + toWrite)
      some ((s.setHead head').pushLoop buf (written + toWrite) head'
        [.pushChunk ((buf.drop written).take toWrite)])
    else none

/-- `PushBatch` copies element `i` of its batch. -/
def copyInNext (i : Nat) (s : State α) : Option (State α) :=
  match s.writer with
  | .batchCopy buf written head toWrite copied =>
    if i < toWrite ∧ i ∉ copied then match buf[written + i]? with
      | some value =>
        let j := cfg.slot (head &&& cfg.kMask) toWrite i
        some ((s.setData (update s.mem.data j value)).writerTo
          (.batchCopy buf written head toWrite (insert i copied)) [])
      | none => none
    else none
  | _ => none

end

section

variable (cfg : Config) (moved : α → α)

def State.beginPop (s : State α) (pc : PopPC α) : Option (State α) :=
  match s.reader with
  | .idle => some (s.readerTo pc [])
  | _ => none

def State.popLoop (s : State α) (out buf : List α) (read tail : Nat) (entered : List (Event α)) : State α :=
  if read < out.length then s.readerTo (.batchHead out buf read tail) entered
  else s.readerTo .idle (entered ++ [.popBatch out read buf])

def consumerNext (s : State α) : Option (State α) :=
  let m := s.mem
  match s.reader with
  | .idle => none
  | .popTail => some (s.readerTo (.popHead m.tail) [])
  | .popHead tail =>
    if tail = m.head then some (s.readerTo .idle [.loadHead, .pop none])
    else some (s.readerTo (.popTake tail) [.loadHead])
  | .popTake tail =>
    let j := tail &&& cfg.kMask
    some ((s.setData (cfg.taken moved m.data j)).readerTo (.popStore (m.data j) tail) [])
  | .popStore value tail =>
    some ((s.setTail (wrapTo cfg.width (tail + 1))).readerTo .idle [.pop (some value)])
  | .batchTail out => some (s.popLoop out out 0 m.tail [])
  | .batchHead out buf read tail =>
    let available := subTo cfg.width m.head tail
    if available = 0 then some (s.readerTo .idle [.loadHead, .popBatch out read buf])
    else some (s.readerTo (.batchCopy out buf read tail (min (out.length - read) available) ∅) [.loadHead])
  | .batchCopy out buf read tail toRead copied =>
    if ∀ i < toRead, i ∈ copied then
      let tail' := wrapTo cfg.width (tail + toRead)
      some ((s.setTail tail').popLoop out buf (read + toRead) tail' [.popChunk toRead])
    else none
  | .discardTail count => some (s.readerTo (.discardHead count m.tail) [])
  | .discardHead count tail =>
    let toDiscard := min count (subTo cfg.width m.head tail)
    if 0 < toDiscard then some (s.readerTo (.discardStore count tail toDiscard) [.loadHead])
    else some (s.readerTo .idle [.loadHead, .discard count toDiscard])
  | .discardStore count tail toDiscard =>
    some ((s.setTail (wrapTo cfg.width (tail + toDiscard))).readerTo .idle [.discard count toDiscard])
  | .peekTail => some (s.readerTo (.peekHead m.tail) [])
  | .peekHead tail =>
    let result := if tail = m.head then none else some (m.data (tail &&& cfg.kMask))
    some (s.readerTo .idle [.loadHead, .peek result])
  | .atTail index => some (s.readerTo (.atHead index m.tail) [])
  | .atHead index tail =>
    -- the sum is computed in `size_t`
    let result := if subTo cfg.width m.head tail ≤ wrapTo cfg.width index then none
      else some (m.data (wrapTo cfg.sizeWidth (tail + index) &&& cfg.kMask))
    some (s.readerTo .idle [.loadHead, .elementAt index result])
  | .clearHead => some (s.readerTo (.clearStore m.head) [.loadHead])
  | .clearStore head => some ((s.setTail head).readerTo .idle [.clear])

def copyOutNext (i : Nat) (s : State α) : Option (State α) :=
  match s.reader with
  | .batchCopy out buf read tail toRead copied =>
    if i < toRead ∧ i ∉ copied then
      let j := cfg.slot (tail &&& cfg.kMask) toRead i
      some ((s.setData (cfg.taken moved s.mem.data j)).readerTo
        (.batchCopy out (buf.set (read + i) (s.mem.data j)) read tail toRead (insert i copied)) [])
    else none
  | _ => none

end

def next (cfg : Config) (moved : α → α) : Act α → State α → Option (State α)
  | .push value, s => s.beginPush (.loadHead fun _ => value)
  | .pushFromCallback callback, s => s.beginPush (.loadHead callback)
  | .pushBatch buf, s => s.beginPush (.batchHead buf)
  | .producer, s => producerNext cfg s
  | .copyIn i, s => copyInNext cfg i s
  | .pop, s => s.beginPop .popTail
  | .popBatch out, s => s.beginPop (.batchTail out)
  | .discard count, s => s.beginPop (.discardTail count)
  | .peek, s => s.beginPop .peekTail
  | .elementAt index, s => s.beginPop (.atTail index)
  | .consumerClear, s => s.beginPop .clearHead
  | .consumer, s => consumerNext cfg moved s
  | .copyOut i, s => copyOutNext cfg moved i s

/-- The constructor; `moved` is what a move leaves behind, `data` the array as it was value-initialised. -/
def machine (cfg : Config) (moved : α → α) (data : Nat → α) : Machine (State α) (Act α) :=
  ⟨⟨⟨0, 0, data⟩, .idle, .idle, []⟩, next cfg moved⟩

end Newosp.Ringbuffer
