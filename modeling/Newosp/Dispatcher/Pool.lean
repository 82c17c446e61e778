import Newosp.Lib.IntrusiveList
import Newosp.Lib.Wrap

/-!
# The block pool of `DataDispatcher`

Blocks are reference counted; the free ones form a stack threaded through `next_free`, whose head packs a tag and a
block index. The functions are whole calls, one after another: a compare-and-swap succeeds at once. `log` is a history.
-/

namespace Newosp.Dispatcher
open Lib Function List

inductive BlockState
  | free
  | allocated
  | ready
  | processing
  | done
  | timeout
  | error
deriving DecidableEq

def blockStateTransition : BlockState → BlockState → Bool
  | .free, .allocated => true
  | .allocated, .free | .allocated, .ready => true
  | .ready, .free | .ready, .processing | .ready, .timeout | .ready, .error => true
  | .processing, .free | .processing, .timeout | .processing, .error => true
  | .done, .free => true
  | .timeout, .free => true
  | .error, .free => true
  | _, _ => false

/-- What happens to a block; `call` carries the stage and the reference count the handler runs under. -/
inductive Event
  | change (block : Nat) (old new : BlockState)
  | addRef (block count : Nat)
  | release (block before : Nat)
  | call (stage block refcount : Nat)
  | recycle (block : Nat)
deriving DecidableEq

/-- A reference count or a handler call, which leaves the state alone. -/
def Event.inside : Event → Bool
  | .addRef .. | .release .. | .call .. => true
  | .change .. | .recycle _ => false

/-- `DataBlock`; `reserved` holds the generation. -/
structure DataBlock where
  refcount : Nat
  state : BlockState
  payloadSize : Nat
  faultId : Nat
  allocTime : Nat
  deadline : Nat
  nextFree : Nat
  reserved : Nat

def jobInvalidIndex : Nat := 4294967295

/-- `JobPackHead`: the tag in the upper half, the block index in the lower. -/
def jobPackHead (index tag : Nat) : Nat := tag * 4294967296 + index

def jobHeadIndex (head : Nat) : Nat := head % 4294967296

def jobHeadTag (head : Nat) : Nat := head / 4294967296

theorem jobHeadIndex_pack {index tag : Nat} (word : index < 4294967296) :
    jobHeadIndex (jobPackHead index tag) = index := by
  unfold jobHeadIndex jobPackHead
  omega

theorem jobHeadTag_pack {index tag : Nat} (word : index < 4294967296) : jobHeadTag (jobPackHead index tag) = tag := by
  unfold jobHeadTag jobPackHead
  omega

/-- The store of a dispatcher with `maxBlocks` blocks. `reports` are the free counts that went to the
backpressure callback. -/
structure Store where
  block : Nat → DataBlock
  freeHead : Nat
  freeCount : Nat
  allocCount : Nat
  reports : List Nat
  log : List Event

/-- `Config`, without the name. -/
structure Config where
  defaultTimeoutMs : Nat
  backpressureThreshold : Nat

def initStore (maxBlocks : Nat) : Store where
  block i := ⟨0, .free, 0, 0, 0, 0, if i + 1 < maxBlocks then i + 1 else jobInvalidIndex, 0⟩
  freeHead := jobPackHead 0 0
  freeCount := maxBlocks
  allocCount := 0
  reports := []
  log := []

namespace Store

variable (p : Store)

def setBlock (b : Nat) (blk : DataBlock) : Store := { p with block := update p.block b blk }

def enter (e : Event) : Store := { p with log := p.log ++ [e] }

/-- `SetState`; its assertion is compiled out in release builds. -/
def setState (b : Nat) (st : BlockState) : Store :=
  (p.setBlock b { p.block b with state := st }).enter (.change b (p.block b).state st)

def setRefcount (b n : Nat) : Store := p.setBlock b { p.block b with refcount := n }

def next (i : Nat) : Nat := (p.block i).nextFree

/-- The backpressure report at the start of `Alloc`. -/
def report (cfg : Config) : Store :=
  if 0 < cfg.backpressureThreshold ∧ p.freeCount ≤ cfg.backpressureThreshold then
    { p with reports := p.reports ++ [p.freeCount] }
  else p

/-- `Alloc`. The generation is the incremented tag, with 0 skipped. -/
def alloc (cfg : Config) (now : Nat) : Option Nat × Store :=
  let p := p.report cfg
  let idx := jobHeadIndex p.freeHead
  if idx = jobInvalidIndex then (none, p)
  else
    let tag := wrap32 (jobHeadTag p.freeHead + 1)
    let gen := if tag = 0 then 1 else tag
    let p := { p with freeHead := jobPackHead (p.next idx) tag, freeCount := sub32 p.freeCount 1,
                      allocCount := wrap32 (p.allocCount + 1) }
    let p := p.setState idx .allocated
    (some idx, p.setBlock idx { p.block idx with reserved := gen, allocTime := now, payloadSize := 0,
                                                 faultId := 0, deadline := 0, refcount := 0 })

def recycle (b : Nat) : Store :=
  let p := p.setState b .free
  let p := { p with allocCount := sub32 p.allocCount 1 }
  let p := p.setBlock b { p.block b with nextFree := jobHeadIndex p.freeHead }
  { p with freeHead := jobPackHead b (wrap32 (jobHeadTag p.freeHead + 1)),
           freeCount := wrap32 (p.freeCount + 1), log := p.log ++ [.recycle b] }

theorem recycle_log (p : Store) (b : Nat) :
    (p.recycle b).log = p.log ++ [.change b (p.block b).state .free, .recycle b] := by
  simp only [recycle, setState, setBlock, enter, append_assoc, cons_append, nil_append]

theorem recycle_block (p : Store) (b : Nat) : (p.recycle b).block = update p.block b
      { p.block b with state := .free, nextFree := jobHeadIndex p.freeHead } := by
  simp only [recycle, setState, setBlock, enter, update_self, update_idem]

/-- `Release`: true if the caller was the last. -/
def release (b : Nat) : Bool × Store :=
  let cur := (p.block b).refcount
  if 0 < cur then
    let p := (p.setRefcount b (cur - 1)).enter (.release b cur)
    if cur = 1 then (true, p.recycle b) else (false, p)
  else (false, p)

def addRef (b count : Nat) : Store := (p.setRefcount b (wrap32 ((p.block b).refcount + count))).enter (.addRef b count)

/-- One iteration of `ScanTimeout` and `ForceCleanup`: a block that is due and can be claimed goes to `st` and to the
free list. -/
def reclaim (due : Nat → DataBlock → Bool) (st : BlockState) (i : Nat) : Bool × Store :=
  let blk := p.block i
  if (blk.state = .processing ∨ blk.state = .ready) ∧ due i blk = true ∧ 0 < blk.refcount then
    (true, ((p.setRefcount i 0).setState i st).recycle i)
  else (false, p)

def sweep (due : Nat → DataBlock → Bool) (st : BlockState) : List Nat → Store → List Nat × Store
  | [], p => ([], p)
  | i :: is, p =>
    let (claimed, p) := p.reclaim due st i
    let (rest, p) := sweep due st is p
    (if claimed then i :: rest else rest, p)

/-- `ScanTimeout`: the blocks for which the callback runs; `count` is their number. -/
def scanTimeout (maxBlocks now : Nat) : List Nat × Store :=
  p.sweep (fun _ blk => blk.deadline != 0 && decide (blk.deadline < now)) .timeout (range maxBlocks)

/-- `ForceCleanup`; a null predicate matches nothing. -/
def forceCleanup (maxBlocks : Nat) (predicate : Option (Nat → Bool)) : List Nat × Store :=
  p.sweep (fun i _ => match predicate with
    | some matching => matching i
    | none => false) .error (range maxBlocks)

end Store

theorem linked_init {i n maxBlocks : Nat} (last : i + n + 1 = maxBlocks) (small : maxBlocks < jobInvalidIndex) :
    Linked (initStore maxBlocks).next jobInvalidIndex i (range' i (n + 1)) :=
  linked_range (fun _ inner => if_pos inner) (fun _ end_ => if_neg (by omega)) (le_of_lt small) last

end Newosp.Dispatcher
