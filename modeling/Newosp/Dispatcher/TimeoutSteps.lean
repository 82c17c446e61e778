import Newosp.Dispatcher.Pipeline
import Newosp.Lib.Machine

/-!
# Pipeline executions beside `ScanTimeout` and `ForceCleanup`

Threads (`ι`) allocate a block, submit it and execute the pipeline on it; a thread may also run `ScanTimeout` or
`ForceCleanup`, between its calls or from a handler. Every access to a reference count or a state is one step, and so is
a handler. An execution is its stage and the stages it will come back to. The free list is the list that the tagged
stack stands for. The fields after `scan` are histories.
-/

namespace Newosp.Dispatcher.Timeouts
open Lib Function

/-- Program counters of `Alloc`, `Submit` and the execution, of which `rest` are the stages to come back to. -/
inductive ExecPC
  | idle
  | allocState (b : Nat)
  | allocFields (b : Nat)
  | owner (b : Nat)
  | submitFields (b deadline refcount : Nat)
  | submitRefcount (b refcount : Nat)
  | submitState (b : Nat)
  | stage (b s : Nat) (rest : List Nat)
  | handler (b s : Nat) (rest : List Nat)
  | addRef (b s : Nat) (rest : List Nat)
  | releaseLoad (b s : Nat) (rest : List Nat)
  | releaseCas (b s : Nat) (rest : List Nat) (cur : Nat)
  | recycleState (b : Nat) (rest : List Nat)
  | recyclePush (b : Nat) (rest : List Nat)

/-- `ScanTimeout` at time `now`, or `ForceCleanup` with a predicate. -/
inductive Kind
  | timeout (now : Nat)
  | cleanup (predicate : Nat → Bool)

def Kind.due : Kind → Nat → DataBlock → Bool
  | .timeout now, _, blk => blk.deadline != 0 && decide (blk.deadline < now)
  | .cleanup predicate, i, _ => predicate i

def Kind.mark : Kind → BlockState
  | .timeout _ => .timeout
  | .cleanup _ => .error

/-- Program counters of the loop of `ScanTimeout` and `ForceCleanup` at block `i`. -/
inductive ScanPC
  | idle
  | loadState (kind : Kind) (i : Nat)
  | check (kind : Kind) (i : Nat)
  | loadCount (kind : Kind) (i : Nat)
  | cas (kind : Kind) (i cur : Nat)
  | mark (kind : Kind) (i : Nat)
  | recycleState (kind : Kind) (i : Nat)
  | recyclePush (kind : Kind) (i : Nat)

/-- The block that a thread executes or is about to: from the store of its count to the end. -/
def ExecPC.works : ExecPC → Option Nat
  | .submitState b | .stage b _ _ | .handler b _ _ | .addRef b _ _ | .releaseLoad b _ _ | .releaseCas b _ _ _ => some b
  | _ => none

/-- The block that a thread has and nobody else knows of. -/
def ExecPC.fills : ExecPC → Option Nat
  | .allocState b | .allocFields b | .owner b | .submitFields b _ _ | .submitRefcount b _ => some b
  | _ => none

def ExecPC.recycles : ExecPC → Option Nat
  | .recycleState b _ | .recyclePush b _ => some b
  | _ => none

def ScanPC.claims : ScanPC → Option Nat
  | .mark _ i | .recycleState _ i | .recyclePush _ i => some i
  | _ => none

/-- Where a block is: free, with the thread that fills it, held (and maybe executed), dropped by its last holder, or
claimed by a scan. -/
inductive Place (ι : Type)
  | free
  | filling (t : ι)
  | live (worker : Option ι)
  | dropped (t : ι)
  | claimed (t : ι)

structure State (ι : Type) where
  block : Nat → DataBlock
  free : List Nat
  exec : ι → ExecPC
  scan : ι → ScanPC
  place : Nat → Place ι
  extra : Nat → Nat
  allocs : Nat → Nat
  recycled : Nat → Nat
  epoch : ι → Nat

/-- A thread allocates, submits its block, goes on with its execution, begins a scan, or goes on with it (if `spurious`,
a weak compare-and-swap fails). -/
inductive Act (ι : Type)
  | alloc (t : ι)
  | submit (t : ι) (deadline consumerCount : Nat)
  | exec (t : ι) (spurious : Bool)
  | beginScan (t : ι) (kind : Kind)
  | scan (t : ι) (spurious : Bool)

variable {ι : Type} [DecidableEq ι]

namespace State

variable (s : State ι) (t : ι)

def goto (pc : ExecPC) : State ι := { s with exec := update s.exec t pc }

def scanTo (pc : ScanPC) : State ι := { s with scan := update s.scan t pc }

def setBlock (b : Nat) (blk : DataBlock) : State ι := { s with block := update s.block b blk }

def setRefcount (b n : Nat) : State ι := s.setBlock b { s.block b with refcount := n }

def setState (b : Nat) (st : BlockState) : State ι := s.setBlock b { s.block b with state := st }

def moveTo (b : Nat) (place : Place ι) : State ι := { s with place := update s.place b place }

/-- `SetState(kFree)`, the first access of `Recycle`. -/
def recycle (b : Nat) : State ι := { s.setState b .free with recycled := update s.recycled b (s.recycled b + 1) }

def push (b : Nat) : State ι := { s.moveTo b .free with free := b :: s.free }

/-- The execution of block `b` goes on with the stages `work`, or is over. -/
def proceed (b : Nat) : List Nat → State ι
  | [] => (match s.place b with
    | .live _ => s.moveTo b (.live none)
    | _ => s).goto t .idle
  | u :: rest => s.goto t (.stage b u rest)

end State

def allocNext (t : ι) (s : State ι) : Option (State ι) :=
  match s.exec t, s.free with
  | .idle, b :: free =>
    some <| { s.moveTo b (.filling t) with
      free := free
      allocs := update s.allocs b (s.allocs b + 1)
      epoch := update s.epoch t (s.allocs b + 1) }.goto t (.allocState b)
  | _, _ => none

def execNext (g : Pipeline) (t : ι) (spurious : Bool) (s : State ι) : Option (State ι) :=
  match s.exec t with
  | .idle | .owner _ => none
  | .allocState b => some ((s.setState b .allocated).goto t (.allocFields b))
  | .allocFields b =>
    some ((s.setBlock b { s.block b with payloadSize := 0, faultId := 0, deadline := 0, refcount := 0 }).goto t
      (.owner b))
  | .submitFields b deadline refcount =>
    some ((s.setBlock b { s.block b with deadline }).goto t (.submitRefcount b refcount))
  | .submitRefcount b refcount =>
    some ({ (s.setRefcount b refcount).moveTo b (.live (some t)) with
      extra := update s.extra b (refcount - 1) }.goto t (.submitState b))
  | .submitState b =>
    let s := s.setState b .ready
    if g.entryStage < 0 ∨ g.stages.length ≤ g.entryStage.toNat then
      -- nothing is executed, and the one reference of the execution is never dropped
      some ({ s.moveTo b (.live none) with extra := update s.extra b (s.extra b + 1) }.goto t .idle)
    else some (s.goto t (.stage b g.entryStage.toNat []))
  | .stage b u rest => match g.stages[u]? with
    | none => some (s.proceed t b rest)
    | some slot =>
      if slot.handler then some (s.goto t (.handler b u rest))
      else if 0 < slot.successors.length then some (s.goto t (.addRef b u rest))
      else some (s.goto t (.releaseLoad b u rest))
  | .handler b u rest =>
    if 0 < (g.successors u).length then some (s.goto t (.addRef b u rest))
    else some (s.goto t (.releaseLoad b u rest))
  | .addRef b u rest =>
    some ((s.setRefcount b (wrap32 ((s.block b).refcount + (g.successors u).length))).goto t (.releaseLoad b u rest))
  | .releaseLoad b u rest =>
    let cur := (s.block b).refcount
    if 0 < cur then some (s.goto t (.releaseCas b u rest cur)) else some (s.proceed t b (g.successors u ++ rest))
  | .releaseCas b u rest cur =>
    if (s.block b).refcount = cur ∧ spurious = false then
      let s := s.setRefcount b (cur - 1)
      if cur = 1 then some ((s.moveTo b (.dropped t)).goto t (.recycleState b rest))
      else some (s.proceed t b (g.successors u ++ rest))
    else if 0 < (s.block b).refcount then some (s.goto t (.releaseCas b u rest (s.block b).refcount))
    else some (s.proceed t b (g.successors u ++ rest))
  | .recycleState b rest => some ((s.recycle b).goto t (.recyclePush b rest))
  | .recyclePush b rest => some ((s.push b).proceed t b rest)

/-- The loop of a scan goes on behind block `i`. -/
def State.scanOn (s : State ι) (t : ι) (maxBlocks : Nat) (kind : Kind) (i : Nat) : State ι :=
  if i + 1 < maxBlocks then s.scanTo t (.loadState kind (i + 1)) else s.scanTo t .idle

/-- One step of `ScanTimeout` or `ForceCleanup`; the callback of a timeout does not touch the pool. -/
def scanNext (maxBlocks : Nat) (t : ι) (spurious : Bool) (s : State ι) : Option (State ι) :=
  match s.scan t with
  | .idle => none
  | .loadState kind i =>
    if (s.block i).state = .processing ∨ (s.block i).state = .ready then some (s.scanTo t (.check kind i))
    else some (s.scanOn t maxBlocks kind i)
  | .check kind i =>
    if kind.due i (s.block i) then some (s.scanTo t (.loadCount kind i)) else some (s.scanOn t maxBlocks kind i)
  | .loadCount kind i =>
    let cur := (s.block i).refcount
    if 0 < cur then some (s.scanTo t (.cas kind i cur)) else some (s.scanOn t maxBlocks kind i)
  | .cas kind i cur =>
    if (s.block i).refcount = cur ∧ spurious = false then
      some (((s.setRefcount i 0).moveTo i (.claimed t)).scanTo t (.mark kind i))
    else if 0 < (s.block i).refcount then some (s.scanTo t (.cas kind i (s.block i).refcount))
    else some (s.scanOn t maxBlocks kind i)
  | .mark kind i => some ((s.setState i kind.mark).scanTo t (.recycleState kind i))
  | .recycleState kind i => some ((s.recycle i).scanTo t (.recyclePush kind i))
  | .recyclePush kind i => some ((s.push i).scanOn t maxBlocks kind i)

def ExecPC.mayScan : ExecPC → Bool
  | .idle | .owner _ | .handler .. => true
  | _ => false

def next (g : Pipeline) (maxBlocks : Nat) : Act ι → State ι → Option (State ι)
  | .alloc t, s => match s.scan t with
    | .idle => allocNext t s
    | _ => none
  | .submit t deadline consumerCount, s => match s.scan t, s.exec t with
    | .idle, .owner b => some (s.goto t (.submitFields b deadline (initialRefcount g consumerCount)))
    | _, _ => none
  | .exec t spurious, s => match s.scan t with
    | .idle => execNext g t spurious s
    | _ => none
  | .beginScan t kind, s => match s.scan t with
    | .idle => if (s.exec t).mayScan then some (s.scanTo t (.loadState kind 0)) else none
    | _ => none
  | .scan t spurious, s => scanNext maxBlocks t spurious s

def machine (g : Pipeline) (maxBlocks : Nat) : Machine (State ι) (Act ι) where
  init :=
    { block := (initStore maxBlocks).block
      free := List.range maxBlocks
      exec := fun _ => .idle
      scan := fun _ => .idle
      place := fun _ => .free
      extra := fun _ => 0
      allocs := fun _ => 0
      recycled := fun _ => 0
      epoch := fun _ => 0 }
  next := next g maxBlocks

end Newosp.Dispatcher.Timeouts
